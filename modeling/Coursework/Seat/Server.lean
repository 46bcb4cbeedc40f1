import Coursework.Lib.Shared
import Mathlib.Algebra.GroupWithZero.Nat
import Mathlib.Data.Int.Notation
import Mathlib.Data.List.FinRange

/-! The request handlers of the seat server. Each is a program over the shared tables, whose
entries are all `int`s and start at -1. -/
namespace Seat
open Shared

/-- A connection, by the number that `client2fd` gives its descriptor. -/
abbrev Client := Fin 1050

abbrev User := Fin 1050

abbrev SeatNum := Fin 256

scoped instance instNeZeroMaxUser : NeZero 1050 := ⟨by decide⟩

scoped instance instNeZeroMaxSeat : NeZero 256 := ⟨by decide⟩

/-- The entries of the shared tables. -/
inductive Cell where
  | client2user (c : Client)
  | user2client (u : User)
  | password (u : User)
  | seat (i : SeatNum)
  deriving DecidableEq

abbrev Tables := Cell → ℤ

/-- `query`. -/
structure Query where
  user : ℤ
  action : ℤ
  seat : ℤ
  deriving DecidableEq

/-- What a handler writes to its connection: a query and, for `check_reservation`, seats. With
`overrun` the handler has written behind its array `send`, and what it does then is not defined. -/
structure Reply where
  query : Query
  seats : List SeatNum
  overrun : Bool
  deriving DecidableEq

/-- The reply of a handler that returns `ret`. -/
def answer (action ret : ℤ) : Reply := ⟨⟨ret, action, ret⟩, [], false⟩

/-- The tables after `initialize`. -/
def initTables : Tables := fun _ => -1

def login (c : Client) (usernum : User) (passwd : ℤ) : Prog Cell ℤ Reply :=
  .read (.client2user c) fun user =>
  if user ≠ -1 then .done (answer 1 (-1))
  else .read (.user2client usernum) fun client =>
  if client ≠ -1 then .done (answer 1 (-1))
  else .read (.password usernum) fun pw =>
  if pw = -1 then
    .write (.password usernum) passwd <| .write (.client2user c) usernum <|
      .write (.user2client usernum) c <| .done (answer 1 1)
  else .read (.password usernum) fun pw =>
  if pw ≠ passwd then .done (answer 1 (-1))
  else
    .write (.client2user c) usernum <| .write (.user2client usernum) c <| .done (answer 1 1)

/-- The checks that `reserve`, `check_reservation` and `cancel_reservation` start with. A seat
number in the range of the table passes the last of them. -/
def ifLoggedIn (c : Client) (usernum : User) (fail : Reply) (p : Prog Cell ℤ Reply) :
    Prog Cell ℤ Reply :=
  .read (.client2user c) fun user =>
  if user ≠ usernum then .done fail
  else .read (.user2client usernum) fun client =>
  if client ≠ c then .done fail
  else p

def reserve (c : Client) (usernum : User) (seatnum : SeatNum) : Prog Cell ℤ Reply :=
  ifLoggedIn c usernum (answer 2 (-1)) <| .read (.seat seatnum) fun user =>
  if user ≠ -1 then .done (answer 2 (-1))
  else .write (.seat seatnum) usernum <| .done (answer 2 seatnum)

/-- The reply of `check_reservation` with the seats that it has found. It ends the array with
`send[cnt] = 0`, and the array has room for 256 numbers. -/
def seatsReply (send : List SeatNum) : Reply :=
  if send = [] then answer 3 (-1) else ⟨⟨1, 3, 1⟩, send, decide (256 ≤ send.length)⟩

/-- The two loops of `check_reservation`, with the seats found so far. -/
def scanSeats (usernum : User) : List SeatNum → List SeatNum → Prog Cell ℤ Reply
  | [], send => .done (seatsReply send)
  | i :: rest, send => .read (.seat i) fun user =>
    scanSeats usernum rest (if user = usernum then send ++ [i] else send)

def checkReservation (c : Client) (usernum : User) : Prog Cell ℤ Reply :=
  ifLoggedIn c usernum (answer 3 (-1)) <| scanSeats usernum (List.finRange 256) []

def cancelReservation (c : Client) (usernum : User) (seatnum : SeatNum) : Prog Cell ℤ Reply :=
  ifLoggedIn c usernum (answer 4 (-1)) <| .read (.seat seatnum) fun user =>
  if user ≠ usernum then .done (answer 4 (-1))
  else .write (.seat seatnum) (-1) <| .done (answer 4 seatnum)

def logout (c : Client) (usernum : User) : Prog Cell ℤ Reply :=
  .read (.client2user c) fun user =>
  if user = -1 then .done (answer 5 (-1))
  else .read (.user2client usernum) fun client =>
  if client = -1 then .done (answer 5 (-1))
  else .write (.client2user c) (-1) <| .write (.user2client usernum) (-1) <| .done (answer 5 1)

/-- The requests with arguments in the ranges of the tables. -/
inductive Request where
  | login (usernum : User) (passwd : ℤ)
  | reserve (usernum : User) (seatnum : SeatNum)
  | checkReservation (usernum : User) (seatnum : SeatNum)
  | cancelReservation (usernum : User) (seatnum : SeatNum)
  | logout (usernum : User)
  deriving DecidableEq

/-- The user that a request names. -/
def Request.user : Request → User
  | login u _ | reserve u _ | checkReservation u _ | cancelReservation u _ | logout u => u

/-- The handler that `thread_func` calls. -/
def handler (c : Client) : Request → Prog Cell ℤ Reply
  | .login u passwd => login c u passwd
  | .reserve u i => reserve c u i
  | .checkReservation u _ => checkReservation c u
  | .cancelReservation u i => cancelReservation c u i
  | .logout u => logout c u

/-- The tables after a request that is handled alone. -/
def serve (σ : Tables) (op : Client × Request) : Tables := ((handler op.1 op.2).eval σ).1

section Evaluation
variable (σ : Tables) (c : Client) (u : User)

/-- The connection and the user may be logged in to each other. -/
def LoggedOff (passwd : ℤ) : Prop :=
  σ (.client2user c) = -1 ∧ σ (.user2client u) = -1 ∧
    (σ (.password u) = -1 ∨ σ (.password u) = passwd)

instance (passwd : ℤ) : Decidable (LoggedOff σ c u passwd) :=
  inferInstanceAs (Decidable (_ ∧ _ ∧ (_ ∨ _)))

/-- The two session tables say that the user is logged in on the connection. -/
def Session : Prop := σ (.client2user c) = u ∧ σ (.user2client u) = c

instance : Decidable (Session σ c u) := inferInstanceAs (Decidable (_ ∧ _))

/-- The tables after a login that succeeds. -/
def loggedIn (passwd : ℤ) : Tables :=
  Function.update (Function.update (Function.update σ (.password u) passwd)
    (.client2user c) u) (.user2client u) c

/-- The tables after a logout that succeeds. -/
def loggedOut : Tables :=
  Function.update (Function.update σ (.client2user c) (-1)) (.user2client u) (-1)

theorem login_eval (passwd : ℤ) : (login c u passwd).eval σ =
    if LoggedOff σ c u passwd then (loggedIn σ c u passwd, answer 1 1)
    else (σ, answer 1 (-1)) := by
  unfold login LoggedOff loggedIn
  by_cases h1 : σ (.client2user c) = -1
  · by_cases h2 : σ (.user2client u) = -1
    · by_cases h3 : σ (.password u) = -1
      · simp [h1, h2, h3]
      · by_cases h4 : σ (.password u) = passwd
        · have hsame : Function.update σ (.password u) passwd = σ :=
            Function.update_eq_self_iff.2 h4.symm
          have hpw : passwd ≠ -1 := h4 ▸ h3
          simp [h1, h2, h4, hpw, hsame]
        · simp [h1, h2, h3, h4]
    · simp [h1, h2]
  · simp [h1]

theorem ifLoggedIn_eval (fail : Reply) (p : Prog Cell ℤ Reply) :
    (ifLoggedIn c u fail p).eval σ = if Session σ c u then p.eval σ else (σ, fail) := by
  unfold ifLoggedIn Session
  by_cases h1 : σ (.client2user c) = u
  · by_cases h2 : σ (.user2client u) = c
    · simp [h1, h2]
    · simp [h1, h2]
  · simp [h1]

theorem reserve_eval (i : SeatNum) : (reserve c u i).eval σ =
    if Session σ c u ∧ σ (.seat i) = -1 then (Function.update σ (.seat i) u, answer 2 i)
    else (σ, answer 2 (-1)) := by
  unfold reserve
  rw [ifLoggedIn_eval]
  by_cases h1 : Session σ c u
  · by_cases h2 : σ (.seat i) = -1
    · simp [h1, h2]
    · simp [h1, h2]
  · simp [h1]

theorem scanSeats_eval (l send : List SeatNum) : (scanSeats u l send).eval σ =
    (σ, seatsReply (send ++ l.filter fun i => σ (.seat i) = u)) := by
  induction l generalizing send with
  | nil => simp [scanSeats]
  | cons i l ih =>
    rw [scanSeats, Prog.eval_read, ih]
    by_cases h : σ (.seat i) = u
    · simp [h]
    · simp [h]

/-- The seats of a user. -/
def seatsOf : List SeatNum := (List.finRange 256).filter fun i => σ (.seat i) = u

theorem checkReservation_eval : (checkReservation c u).eval σ =
    (σ, if Session σ c u then seatsReply (seatsOf σ u) else answer 3 (-1)) := by
  unfold checkReservation
  rw [ifLoggedIn_eval, scanSeats_eval, List.nil_append, ← seatsOf]
  by_cases h : Session σ c u
  · rw [if_pos h, if_pos h]
  · rw [if_neg h, if_neg h]

theorem seatsOf_full : 256 ≤ (seatsOf σ u).length ↔ ∀ i, σ (.seat i) = u := by
  have hle : (seatsOf σ u).length ≤ (List.finRange 256).length := List.length_filter_le ..
  have hall : (seatsOf σ u).length = (List.finRange 256).length ↔ ∀ i, σ (.seat i) = u := by
    rw [seatsOf, List.length_filter_eq_length_iff]
    simp
  rw [List.length_finRange] at hle hall
  rw [← hall]
  omega

theorem cancelReservation_eval (i : SeatNum) : (cancelReservation c u i).eval σ =
    if Session σ c u ∧ σ (.seat i) = u then (Function.update σ (.seat i) (-1), answer 4 i)
    else (σ, answer 4 (-1)) := by
  unfold cancelReservation
  rw [ifLoggedIn_eval]
  by_cases h1 : Session σ c u
  · by_cases h2 : σ (.seat i) = u
    · simp [h1, h2]
    · simp [h1, h2]
  · simp [h1]

theorem logout_eval : (logout c u).eval σ =
    if σ (.client2user c) ≠ -1 ∧ σ (.user2client u) ≠ -1 then (loggedOut σ c u, answer 5 1)
    else (σ, answer 5 (-1)) := by
  unfold logout loggedOut
  by_cases h1 : σ (.client2user c) = -1
  · simp [h1]
  · by_cases h2 : σ (.user2client u) = -1
    · simp [h1, h2]
    · simp [h1, h2]

end Evaluation

end Seat
