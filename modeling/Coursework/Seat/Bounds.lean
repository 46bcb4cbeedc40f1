import Coursework.Seat.Sessions

/-! The handlers of the seat server with the indices as they come from the network: which of
their accesses stay inside the arrays. -/
namespace Seat.Raw
open Shared

/-- The arrays that the handlers index; `send` is local to `check_reservation`. -/
inductive Arr where
  | c2uMutex | u2cMutex | seatMutex | client2user | user2client | password | seat | send
  deriving DecidableEq

def maxUser : ℤ := 1050
def maxSeat : ℤ := 256

def Arr.size : Arr → ℤ
  | .c2uMutex | .u2cMutex | .client2user | .user2client | .password => maxUser
  | .seatMutex | .seat | .send => maxSeat

/-- An array with an index of any value. -/
abbrev Slot := Arr × ℤ

def InBounds (x : Slot) : Prop := 0 ≤ x.2 ∧ x.2 < x.1.size

/-- An access whose value is not used: a mutex taken or given back, or a number printed. -/
def touch (x : Slot) (p : Prog Slot ℤ ℤ) : Prog Slot ℤ ℤ := .read x fun _ => p

def touchAll (xs : List Slot) (p : Prog Slot ℤ ℤ) : Prog Slot ℤ ℤ := xs.foldr touch p

/-- `login`; `c` is `client2fd[client_sock]`. -/
def login (c usernum passwd : ℤ) : Prog Slot ℤ ℤ :=
  let mutexes := [(.c2uMutex, c), (.u2cMutex, usernum)]
  let leave ret := touchAll mutexes (.done ret)
  touchAll mutexes <| .read (.client2user, c) fun user =>
  if user ≠ -1 then leave (-1)
  else .read (.user2client, usernum) fun client =>
  if client ≠ -1 then leave (-1)
  else .read (.password, usernum) fun pw =>
  if pw = -1 then
    .write (.password, usernum) passwd <| .write (.client2user, c) usernum <|
      .write (.user2client, usernum) c <| leave 1
  else .read (.password, usernum) fun pw =>
  if pw ≠ passwd then leave (-1)
  else .write (.client2user, c) usernum <| .write (.user2client, usernum) c <| leave 1

/-- The three checks of `reserve`, `check_reservation` and `cancel_reservation`. -/
def ifLoggedIn (c usernum seatnum : ℤ) (fail p : Prog Slot ℤ ℤ) : Prog Slot ℤ ℤ :=
  .read (.client2user, c) fun user =>
  if user ≠ usernum then fail
  else .read (.user2client, usernum) fun client =>
  if client ≠ c then fail
  else if seatnum > 255 ∨ seatnum < 0 then fail
  else p

/-- The mutexes of these three handlers. -/
def mutexes (c usernum seatnum : ℤ) : List Slot :=
  [(.c2uMutex, c), (.u2cMutex, usernum), (.seatMutex, seatnum)]

def leave (c usernum seatnum ret : ℤ) : Prog Slot ℤ ℤ :=
  touchAll (mutexes c usernum seatnum) (.done ret)

def reserve (c usernum seatnum : ℤ) : Prog Slot ℤ ℤ :=
  touchAll (mutexes c usernum seatnum) <|
  ifLoggedIn c usernum seatnum (leave c usernum seatnum (-1)) <|
  .read (.seat, seatnum) fun user =>
  if user ≠ -1 then leave c usernum seatnum (-1)
  else .write (.seat, seatnum) usernum <| leave c usernum seatnum seatnum

/-- The two loops of `check_reservation`, over the seats in order; `k` goes on with the number of
seats found. -/
def scanSeats (usernum : ℤ) (k : ℕ → Prog Slot ℤ ℤ) : List ℕ → ℕ → Prog Slot ℤ ℤ
  | [], cnt => k cnt
  | i :: rest, cnt => .read (.seat, i) fun user =>
    if user = usernum then .write (.send, cnt) i (scanSeats usernum k rest (cnt + 1))
    else scanSeats usernum k rest cnt

/-- The rest of `check_reservation`: the array is ended with 0, sent and printed. -/
def sendSeats (c usernum seatnum : ℤ) (cnt : ℕ) : Prog Slot ℤ ℤ :=
  .write (.send, cnt) 0 <|
  if cnt = 0 then leave c usernum seatnum (-1)
  else touchAll ((List.range cnt).map fun i : ℕ => (.send, (i : ℤ))) (leave c usernum seatnum 1)

def checkReservation (c usernum seatnum : ℤ) : Prog Slot ℤ ℤ :=
  touchAll (mutexes c usernum seatnum) <|
  ifLoggedIn c usernum seatnum (leave c usernum seatnum (-1)) <|
  scanSeats usernum (sendSeats c usernum seatnum) (List.range 256) 0

def cancelReservation (c usernum seatnum : ℤ) : Prog Slot ℤ ℤ :=
  touchAll (mutexes c usernum seatnum) <|
  ifLoggedIn c usernum seatnum (leave c usernum seatnum (-1)) <|
  .read (.seat, seatnum) fun user =>
  if user ≠ usernum then leave c usernum seatnum (-1)
  else .write (.seat, seatnum) (-1) <| leave c usernum seatnum seatnum

def logout (c usernum : ℤ) : Prog Slot ℤ ℤ :=
  let mutexes := [(.c2uMutex, c), (.u2cMutex, usernum)]
  let leave ret := touchAll mutexes (.done ret)
  touchAll mutexes <| .read (.client2user, c) fun user =>
  if user = -1 then leave (-1)
  else .read (.user2client, usernum) fun client =>
  if client = -1 then leave (-1)
  else .write (.client2user, c) (-1) <| .write (.user2client, usernum) (-1) <| leave 1

/-- The `switch` of `thread_func`; the exit query and other actions index nothing. -/
def threadFunc (c : ℤ) (q : Query) : Prog Slot ℤ ℤ :=
  if q.action = 1 then login c q.user q.seat
  else if q.action = 2 then reserve c q.user q.seat
  else if q.action = 3 then checkReservation c q.user q.seat
  else if q.action = 4 then cancelReservation c q.user q.seat
  else if q.action = 5 then logout c q.user
  else .done 0

/-- What a handler of user `u` can read once it holds its mutexes, with `m` in the arrays then:
of a seat only whether it is one of `u`'s is certain, in the other arrays nothing changes. -/
def Sees (m : Slot → ℤ) (u : ℤ) (x : Slot) (v : ℤ) : Prop :=
  (v = u ↔ m x = u) ∧ (x.1 ≠ .seat → v = m x)

theorem Sees.self (m : Slot → ℤ) (u : ℤ) (x : Slot) : Sees m u x (m x) := ⟨Iff.rfl, fun _ => rfl⟩

/-- The condition on the query and the arrays. -/
structure Fits (m : Slot → ℤ) (c : ℤ) (q : Query) : Prop where
  session : 1 ≤ q.action ∧ q.action ≤ 5 → (0 ≤ c ∧ c < maxUser) ∧ 0 ≤ q.user ∧ q.user < maxUser
  seat : 2 ≤ q.action ∧ q.action ≤ 4 → 0 ≤ q.seat ∧ q.seat < maxSeat
  room : q.action = 3 → m (.client2user, c) = q.user → m (.user2client, q.user) = c →
    ∃ i : ℕ, i < 256 ∧ m (.seat, i) ≠ q.user

section Confined

variable {m : Slot → ℤ} {u : ℤ}

/-- Every access of the program is inside its array, whatever the other threads do. -/
abbrev Safe (m : Slot → ℤ) (u : ℤ) (p : Prog Slot ℤ ℤ) : Prop := p.Confined (Sees m u) InBounds

theorem safe_touchAll (xs : List Slot) (p : Prog Slot ℤ ℤ) :
    Safe m u (touchAll xs p) ↔ (∀ x ∈ xs, InBounds x) ∧ Safe m u p := by
  induction xs with
  | nil => simp [touchAll]
  | cons x xs ih =>
    rw [List.forall_mem_cons, and_assoc, ← ih]
    exact ⟨fun h => ⟨h.1, h.2 _ (Sees.self m u x)⟩, fun h => ⟨h.1, fun _ _ => h.2⟩⟩

theorem safe_ite {b : Prop} [Decidable b] {p q : Prog Slot ℤ ℤ} (hp : b → Safe m u p)
    (hq : ¬ b → Safe m u q) : Safe m u (if b then p else q) := by
  split
  · exact hp ‹_›
  · exact hq ‹_›

theorem safe_leave {c i : ℤ} (h : ∀ x ∈ mutexes c u i, InBounds x) (ret : ℤ) :
    Safe m u (leave c u i ret) :=
  (safe_touchAll _ _).2 ⟨h, trivial⟩

theorem safe_ifLoggedIn {c i : ℤ} {fail p : Prog Slot ℤ ℤ} (hc : InBounds (.client2user, c))
    (hu : InBounds (.user2client, u)) (hf : Safe m u fail) :
    Safe m u (ifLoggedIn c u i fail p) ↔
      (m (.client2user, c) = u → m (.user2client, u) = c → 0 ≤ i → i < maxSeat → Safe m u p) := by
  constructor
  · intro h hsess hback h0 h1
    have h2 := h.2 _ (Sees.self m u _)
    dsimp only at h2
    rw [if_neg (not_not.2 hsess)] at h2
    have h3 := h2.2 _ (Sees.self m u _)
    dsimp only at h3
    rw [if_neg (not_not.2 hback), if_neg (by change i < 256 at h1; omega)] at h3
    exact h3
  · intro h
    refine ⟨hc, fun v hv => safe_ite (fun _ => hf) fun hsess => ?_⟩
    refine ⟨hu, fun w hw => safe_ite (fun _ => hf) fun hback => safe_ite (fun _ => hf) fun hi => ?_⟩
    have hvm : v = m (.client2user, c) := hv.2 (by simp)
    have hwm : w = m (.user2client, u) := hw.2 (by simp)
    refine h (hvm ▸ not_not.1 hsess) (hwm ▸ not_not.1 hback) (by omega) ?_
    change i < 256
    omega

/-- The seats found by the loops are those of the user when the handler started. -/
theorem safe_scanSeats {k : ℕ → Prog Slot ℤ ℤ} {l : List ℕ} (hl : ∀ i ∈ l, i < 256) {cnt : ℕ}
    (hcnt : cnt + l.length ≤ 256) :
    Safe m u (scanSeats u k l cnt) ↔
      Safe m u (k (cnt + (l.filter fun i : ℕ => m (.seat, i) = u).length)) := by
  induction l generalizing cnt with
  | nil => rfl
  | cons i l ih =>
    obtain ⟨hi, hl⟩ := List.forall_mem_cons.1 hl
    rw [List.length_cons] at hcnt
    have hseat : InBounds (.seat, (i : ℤ)) := ⟨by simp, by change (i : ℤ) < 256; omega⟩
    have hsend : InBounds (.send, (cnt : ℤ)) := ⟨by simp, by change (cnt : ℤ) < 256; omega⟩
    by_cases hown : m (.seat, i) = u
    · have hlen : cnt + ((i :: l).filter fun i : ℕ => m (.seat, i) = u).length =
          cnt + 1 + (l.filter fun i : ℕ => m (.seat, i) = u).length := by
        rw [List.filter_cons_of_pos (by simpa using hown), List.length_cons]
        omega
      rw [hlen, ← ih hl (by omega)]
      constructor
      · intro h
        have hk := h.2 _ (Sees.self m u _)
        dsimp only at hk
        rw [if_pos hown] at hk
        exact hk.2
      · refine fun h => ⟨hseat, fun v hv => ?_⟩
        dsimp only
        rw [if_pos (hv.1.2 hown)]
        exact ⟨hsend, h⟩
    · rw [List.filter_cons_of_neg (by simpa using hown), ← ih hl (by omega)]
      constructor
      · intro h
        have hk := h.2 _ (Sees.self m u _)
        dsimp only at hk
        rw [if_neg hown] at hk
        exact hk
      · refine fun h => ⟨hseat, fun v hv => ?_⟩
        dsimp only
        rw [if_neg fun he => hown (hv.1.1 he)]
        exact h

theorem safe_sendSeats {c i : ℤ} (h : ∀ x ∈ mutexes c u i, InBounds x) (cnt : ℕ) :
    Safe m u (sendSeats c u i cnt) ↔ cnt < 256 := by
  constructor
  · intro hs
    have hlt : (cnt : ℤ) < 256 := hs.1.2
    omega
  · intro hlt
    refine ⟨⟨by simp, by change (cnt : ℤ) < 256; omega⟩, ?_⟩
    refine safe_ite (fun _ => safe_leave h _) fun _ => (safe_touchAll _ _).2 ⟨?_, safe_leave h _⟩
    intro x hx
    obtain ⟨j, hj, rfl⟩ := List.mem_map.1 hx
    have hlt' := List.mem_range.1 hj
    exact ⟨by simp, by change (j : ℤ) < 256; omega⟩

theorem found_lt_iff : ((List.range 256).filter fun i : ℕ => m (.seat, i) = u).length < 256 ↔
    ∃ i : ℕ, i < 256 ∧ m (.seat, i) ≠ u := by
  have hle := List.length_filter_le (fun i : ℕ => decide (m (.seat, i) = u)) (List.range 256)
  have hall := @List.length_filter_eq_length_iff ℕ (fun i : ℕ => decide (m (.seat, i) = u))
    (List.range 256)
  rw [List.length_range] at hle hall
  constructor
  · intro hlt
    by_contra hno
    push Not at hno
    refine absurd (hall.2 fun i hi => ?_) hlt.ne
    simpa using hno i (List.mem_range.1 hi)
  · rintro ⟨i, hi, hne⟩
    refine lt_of_le_of_ne hle fun he => hne ?_
    simpa using hall.1 he i (List.mem_range.2 hi)

theorem safe_pair {c ret : ℤ} (hc : 0 ≤ c ∧ c < maxUser) (hu : 0 ≤ u ∧ u < maxUser) :
    Safe m u (touchAll [(.c2uMutex, c), (.u2cMutex, u)] (.done ret)) := by
  refine (safe_touchAll _ _).2 ⟨?_, trivial⟩
  rintro x (_ | ⟨_, _ | ⟨_, ⟨⟩⟩⟩)
  · exact hc
  · exact hu

theorem safe_login {c p : ℤ} : Safe m u (login c u p) ↔
    (0 ≤ c ∧ c < maxUser) ∧ 0 ≤ u ∧ u < maxUser := by
  constructor
  · intro h
    have hm := ((safe_touchAll _ _).1 h).1
    exact ⟨hm _ List.mem_cons_self, hm _ (List.mem_cons_of_mem _ List.mem_cons_self)⟩
  · rintro ⟨hc, hu⟩
    have leave (ret : ℤ) := @safe_pair m _ _ ret hc hu
    refine (safe_touchAll _ _).2 ⟨((safe_touchAll _ _).1 (leave 1)).1, ?_⟩
    refine ⟨hc, fun _ _ => safe_ite (fun _ => leave _) fun _ => ?_⟩
    refine ⟨hu, fun _ _ => safe_ite (fun _ => leave _) fun _ => ?_⟩
    refine ⟨hu, fun _ _ => safe_ite (fun _ => ⟨hu, hc, hu, leave _⟩) fun _ => ?_⟩
    exact ⟨hu, fun _ _ => safe_ite (fun _ => leave _) fun _ => ⟨hc, hu, leave _⟩⟩

theorem safe_logout {c : ℤ} : Safe m u (logout c u) ↔
    (0 ≤ c ∧ c < maxUser) ∧ 0 ≤ u ∧ u < maxUser := by
  constructor
  · intro h
    have hm := ((safe_touchAll _ _).1 h).1
    exact ⟨hm _ List.mem_cons_self, hm _ (List.mem_cons_of_mem _ List.mem_cons_self)⟩
  · rintro ⟨hc, hu⟩
    have leave (ret : ℤ) := @safe_pair m _ _ ret hc hu
    refine (safe_touchAll _ _).2 ⟨((safe_touchAll _ _).1 (leave 1)).1, ?_⟩
    refine ⟨hc, fun _ _ => safe_ite (fun _ => leave _) fun _ => ?_⟩
    exact ⟨hu, fun _ _ => safe_ite (fun _ => leave _) fun _ => ⟨hc, hu, leave _⟩⟩

/-- The three indices of the other handlers. -/
def InRange (c u i : ℤ) : Prop :=
  ((0 ≤ c ∧ c < maxUser) ∧ 0 ≤ u ∧ u < maxUser) ∧ 0 ≤ i ∧ i < maxSeat

theorem mutexes_inBounds {c i : ℤ} : (∀ x ∈ mutexes c u i, InBounds x) ↔ InRange c u i := by
  simp [mutexes, InBounds, InRange, Arr.size, and_assoc]

theorem safe_seat {c i : ℤ} {p : Prog Slot ℤ ℤ} :
    Safe m u (touchAll (mutexes c u i) (ifLoggedIn c u i (leave c u i (-1)) p)) ↔
      InRange c u i ∧ (m (.client2user, c) = u → m (.user2client, u) = c → Safe m u p) := by
  rw [safe_touchAll, mutexes_inBounds]
  refine and_congr_right fun hr => ?_
  rw [safe_ifLoggedIn hr.1.1 hr.1.2 (safe_leave (mutexes_inBounds.2 hr) _)]
  exact ⟨fun h h1 h2 => h h1 h2 hr.2.1 hr.2.2, fun h h1 h2 _ _ => h h1 h2⟩

theorem safe_reserve {c i : ℤ} : Safe m u (reserve c u i) ↔ InRange c u i := by
  refine safe_seat.trans ⟨fun h => h.1, fun hr => ⟨hr, fun _ _ => ?_⟩⟩
  have hleave := safe_leave (m := m) (mutexes_inBounds.2 hr)
  exact ⟨hr.2, fun _ _ => safe_ite (fun _ => hleave _) fun _ => ⟨hr.2, hleave _⟩⟩

theorem safe_cancelReservation {c i : ℤ} :
    Safe m u (cancelReservation c u i) ↔ InRange c u i := by
  refine safe_seat.trans ⟨fun h => h.1, fun hr => ⟨hr, fun _ _ => ?_⟩⟩
  have hleave := safe_leave (m := m) (mutexes_inBounds.2 hr)
  exact ⟨hr.2, fun _ _ => safe_ite (fun _ => hleave _) fun _ => ⟨hr.2, hleave _⟩⟩

theorem safe_checkReservation {c i : ℤ} : Safe m u (checkReservation c u i) ↔
    InRange c u i ∧ (m (.client2user, c) = u → m (.user2client, u) = c →
      ∃ j : ℕ, j < 256 ∧ m (.seat, j) ≠ u) := by
  refine safe_seat.trans (and_congr_right fun hr => ?_)
  have hl : ∀ i ∈ List.range 256, i < 256 := fun i hi => List.mem_range.1 hi
  rw [safe_scanSeats hl (by rw [List.length_range]), safe_sendSeats (mutexes_inBounds.2 hr),
    Nat.zero_add, found_lt_iff]

end Confined

/-- For every query with any values in its three fields, on every connection and with any
contents of the arrays: each access of the handler is inside its array, whatever the other
threads do meanwhile, if and only if the user and the seat are in the range of the arrays and no
reservation check is made by a logged-in user who holds all seats. -/
theorem accesses_inBounds (m : Slot → ℤ) (c : ℤ) (q : Query) :
    Safe m q.user (threadFunc c q) ↔ Fits m c q := by
  unfold threadFunc
  split_ifs with h1 h2 h3 h4 h5
  · rw [safe_login]
    exact ⟨fun h => ⟨fun _ => h, fun ha => by omega, fun ha => by omega⟩,
      fun h => h.session (by omega)⟩
  · rw [safe_reserve]
    exact ⟨fun h => ⟨fun _ => h.1, fun _ => h.2, fun ha => by omega⟩,
      fun h => ⟨h.session (by omega), h.seat (by omega)⟩⟩
  · rw [safe_checkReservation]
    exact ⟨fun h => ⟨fun _ => h.1.1, fun _ => h.1.2, fun _ => h.2⟩,
      fun h => ⟨⟨h.session (by omega), h.seat (by omega)⟩, h.room h3⟩⟩
  · rw [safe_cancelReservation]
    exact ⟨fun h => ⟨fun _ => h.1, fun _ => h.2, fun ha => by omega⟩,
      fun h => ⟨h.session (by omega), h.seat (by omega)⟩⟩
  · rw [safe_logout]
    exact ⟨fun h => ⟨fun _ => h, fun ha => by omega, fun ha => by omega⟩,
      fun h => h.session (by omega)⟩
  · exact iff_of_true trivial ⟨fun ha => by omega, fun ha => by omega, fun ha => by omega⟩

/-- The tables in raw arrays. -/
def tables (m : Slot → ℤ) : Tables
  | .client2user c => m (.client2user, c)
  | .user2client u => m (.user2client, u)
  | .password u => m (.password, u)
  | .seat i => m (.seat, i)

/-- The raw program does to the tables what the handler does, and returns the user field of its
reply. -/
def Matches (p : Prog Slot ℤ ℤ) (h : Prog Cell ℤ Reply) : Prop :=
  ∀ m, tables (p.eval m).1 = (h.eval (tables m)).1 ∧ (p.eval m).2 = (h.eval (tables m)).2.query.user

/-- The slot of an entry. -/
def slotOf : Cell → Slot
  | .client2user c => (.client2user, c)
  | .user2client u => (.user2client, u)
  | .password u => (.password, u)
  | .seat i => (.seat, i)

theorem tables_slotOf (m : Slot → ℤ) (x : Cell) : tables m x = m (slotOf x) := by
  cases x <;> rfl

theorem slotOf_inj {x y : Cell} (h : slotOf x = slotOf y) : x = y := by
  cases x <;> cases y <;> simp only [slotOf, Prod.mk.injEq, reduceCtorEq, false_and, true_and] at h
  all_goals rw [Fin.ext (Int.ofNat.inj h)]

theorem tables_update (m : Slot → ℤ) (x : Cell) (v : ℤ) :
    tables (Function.update m (slotOf x) v) = Function.update (tables m) x v := by
  funext y
  rw [tables_slotOf]
  by_cases hy : y = x
  · rw [hy, Function.update_self, Function.update_self]
  · rw [Function.update_of_ne fun he => hy (slotOf_inj he), Function.update_of_ne hy,
      tables_slotOf]

theorem tables_send (m : Slot → ℤ) (j v : ℤ) :
    tables (Function.update m (.send, j) v) = tables m := by
  funext y
  rw [tables_slotOf, tables_slotOf]
  cases y <;> simp [slotOf]

namespace Matches

variable {p p' : Prog Slot ℤ ℤ} {h h' : Prog Cell ℤ Reply}

theorem touchAll (hp : Matches p h) (xs : List Slot) : Matches (touchAll xs p) h := by
  induction xs with
  | nil => exact hp
  | cons x xs ih => exact ih

theorem done {ret : ℤ} {r : Reply} (hr : ret = r.query.user) : Matches (.done ret) (.done r) :=
  fun _ => ⟨rfl, hr⟩

theorem read {k : ℤ → Prog Slot ℤ ℤ} {k' : ℤ → Prog Cell ℤ Reply} (x : Cell)
    (hk : ∀ v, Matches (k v) (k' v)) : Matches (.read (slotOf x) k) (.read x k') := by
  intro m
  rw [Prog.eval_read, Prog.eval_read, tables_slotOf]
  exact hk _ m

theorem write (hp : Matches p h) (x : Cell) (v : ℤ) :
    Matches (.write (slotOf x) v p) (.write x v h) := by
  intro m
  rw [Prog.eval_write, Prog.eval_write, ← tables_update]
  exact hp _

theorem send (hp : Matches p h) (j v : ℤ) : Matches (.write (.send, j) v p) h := by
  intro m
  rw [Prog.eval_write, ← tables_send m j v]
  exact hp _

theorem ite {b b' : Prop} [Decidable b] [Decidable b'] (hb : b ↔ b') (hp : Matches p h)
    (hp' : Matches p' h') : Matches (if b then p else p') (if b' then h else h') := by
  by_cases hbb : b
  · rw [if_pos hbb, if_pos (hb.1 hbb)]
    exact hp
  · rw [if_neg hbb, if_neg fun hc => hbb (hb.2 hc)]
    exact hp'

theorem leave (c : Client) (u : User) (i : SeatNum) {ret : ℤ} {r : Reply}
    (hr : ret = r.query.user) : Matches (leave c u i ret) (.done r) :=
  (done hr).touchAll _

theorem session (hp : Matches p h) (c : Client) (u : User) (i : SeatNum) {r : Reply}
    (hr : -1 = r.query.user) :
    Matches (Raw.touchAll (mutexes c u i) (ifLoggedIn c u i (Raw.leave c u i (-1)) p))
      (Seat.ifLoggedIn c u r h) := by
  refine touchAll (read (.client2user c) fun v => ?_) _
  refine ite Iff.rfl (leave c u i hr) (read (.user2client u) fun w => ?_)
  refine ite Iff.rfl (leave c u i hr) ?_
  rw [if_neg (by omega)]
  exact hp

theorem login (c : Client) (u : User) (passwd : ℤ) :
    Matches (login c u passwd) (Seat.login c u passwd) := by
  have leave {ret : ℤ} {r : Reply} (hr : ret = r.query.user) := (done hr).touchAll
    [(.c2uMutex, (c : ℤ)), (.u2cMutex, (u : ℤ))]
  unfold Raw.login Seat.login
  refine touchAll (read (.client2user c) fun v => ?_) _
  refine ite Iff.rfl (leave rfl) (read (.user2client u) fun w => ?_)
  refine ite Iff.rfl (leave rfl) (read (.password u) fun pw => ?_)
  refine ite Iff.rfl ?_ (read (.password u) fun pw => ?_)
  · exact (((leave rfl).write (.user2client u) _).write (.client2user c) _).write (.password u) _
  · refine ite Iff.rfl (leave rfl) ?_
    exact ((leave rfl).write (.user2client u) _).write (.client2user c) _

theorem logout (c : Client) (u : User) : Matches (logout c u) (Seat.logout c u) := by
  have leave {ret : ℤ} {r : Reply} (hr : ret = r.query.user) := (done hr).touchAll
    [(.c2uMutex, (c : ℤ)), (.u2cMutex, (u : ℤ))]
  unfold Raw.logout Seat.logout
  refine touchAll (read (.client2user c) fun v => ?_) _
  refine ite Iff.rfl (leave rfl) (read (.user2client u) fun w => ?_)
  refine ite Iff.rfl (leave rfl) ?_
  exact ((leave rfl).write (.user2client u) _).write (.client2user c) _

theorem reserve (c : Client) (u : User) (i : SeatNum) :
    Matches (reserve c u i) (Seat.reserve c u i) := by
  unfold Raw.reserve Seat.reserve
  refine session (read (.seat i) fun v => ?_) c u i rfl
  refine ite Iff.rfl (leave c u i rfl) ?_
  exact (leave c u i rfl).write (.seat i) _

theorem cancelReservation (c : Client) (u : User) (i : SeatNum) :
    Matches (cancelReservation c u i) (Seat.cancelReservation c u i) := by
  unfold Raw.cancelReservation Seat.cancelReservation
  refine session (read (.seat i) fun v => ?_) c u i rfl
  refine ite Iff.rfl (leave c u i rfl) ?_
  exact (leave c u i rfl).write (.seat i) _

theorem scanSeats (c : Client) (u : User) (i : SeatNum) (l send : List SeatNum) :
    Matches (scanSeats u (sendSeats c u i) (l.map Fin.val) send.length)
      (Seat.scanSeats u l send) := by
  induction l generalizing send with
  | nil =>
    refine Matches.send ?_ _ _
    by_cases hs : send = []
    · subst hs
      exact leave c u i rfl
    · rw [if_neg fun hc => hs (List.length_eq_zero_iff.1 hc), Seat.scanSeats, seatsReply,
        if_neg hs]
      refine touchAll ?_ _
      exact leave c u i rfl
  | cons j l ih =>
    refine read (.seat j) fun v => ?_
    by_cases hv : v = u
    · have hnext := ih (send ++ [j])
      rw [List.length_append, List.length_singleton] at hnext
      rw [if_pos hv, if_pos hv]
      exact hnext.send _ _
    · rw [if_neg hv, if_neg hv]
      exact ih send

theorem checkReservation (c : Client) (u : User) (i : SeatNum) :
    Matches (checkReservation c u i) (Seat.checkReservation c u) := by
  have hrange : (List.finRange 256).map Fin.val = List.range 256 := by simp
  have hscan := scanSeats c u i (List.finRange 256) []
  rw [hrange] at hscan
  exact session hscan c u i rfl

end Matches

/-- The query of a request. -/
def queryOf : Request → Query
  | .login u passwd => ⟨u, 1, passwd⟩
  | .reserve u i => ⟨u, 2, i⟩
  | .checkReservation u i => ⟨u, 3, i⟩
  | .cancelReservation u i => ⟨u, 4, i⟩
  | .logout u => ⟨u, 5, 0⟩

theorem threadFunc_matches (c : Client) (req : Request) :
    Matches (threadFunc c (queryOf req)) (handler c req) := by
  cases req with
  | login u passwd => exact .login c u passwd
  | reserve u i => exact .reserve c u i
  | checkReservation u i => exact .checkReservation c u i
  | cancelReservation u i => exact .cancelReservation c u i
  | logout u => exact .logout c u

/-- Arrays that hold the tables, and -1 elsewhere. -/
def memory (σ : Tables) : Slot → ℤ
  | (.client2user, j) => if h : 0 ≤ j ∧ j < 1050 then σ (.client2user ⟨j.toNat, by omega⟩) else -1
  | (.user2client, j) => if h : 0 ≤ j ∧ j < 1050 then σ (.user2client ⟨j.toNat, by omega⟩) else -1
  | (.password, j) => if h : 0 ≤ j ∧ j < 1050 then σ (.password ⟨j.toNat, by omega⟩) else -1
  | (.seat, j) => if h : 0 ≤ j ∧ j < 256 then σ (.seat ⟨j.toNat, by omega⟩) else -1
  | _ => -1

theorem memory_slotOf (σ : Tables) (x : Cell) : memory σ (slotOf x) = σ x := by
  cases x with
  | client2user j | user2client j | password j | seat j =>
    simp only [slotOf, memory]
    rw [dif_pos (by omega)]
    rfl

theorem checkReservation_full {σ : Tables} {c : Client} {u : User} (hs : Session σ c u)
    (hall : ∀ i, σ (.seat i) = u) (i : ℤ) :
    ¬ Safe (memory σ) u (checkReservation c u i) := by
  intro h
  obtain ⟨j, hj, hne⟩ := (safe_checkReservation.1 h).2
    ((memory_slotOf σ (.client2user c)).trans hs.1) ((memory_slotOf σ (.user2client u)).trans hs.2)
  exact hne ((memory_slotOf σ (.seat ⟨j, hj⟩)).trans (hall _))

/-- A login of user 1050, a reservation of seat 256, and a check by a user who has reserved
all seats. -/
theorem accesses_outOfBounds :
    ¬ Safe (memory initTables) 1050 (threadFunc 1 ⟨1050, 1, 5⟩) ∧
    ¬ Safe (memory initTables) 0 (threadFunc 1 ⟨0, 2, 256⟩) ∧
    ¬ Safe (memory (Machine.run serve initTables (reservations (List.finRange 256)))) 0
      (threadFunc 1 ⟨0, 3, 0⟩) := by
  refine ⟨fun h => ?_, fun h => ?_, fun h => ?_⟩
  · exact absurd (safe_login.1 h).2.2 (by decide)
  · exact absurd (safe_reserve.1 h).2.2 (by decide)
  · obtain ⟨hs, hall⟩ := run_reservations
    exact checkReservation_full hs hall 0 h

end Seat.Raw
