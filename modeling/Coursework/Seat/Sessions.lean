import Coursework.Seat.Server
import Coursework.Lib.Machine

/-! The two session tables of the seat server: which requests keep them inverse to each other. -/
namespace Seat

/-- `client2user` and `user2client` are inverse to each other. -/
def Inverse (σ : Tables) : Prop :=
  ∀ (c : Client) (u : User), σ (.client2user c) = u ↔ σ (.user2client u) = c

/-- The entries of the session tables are -1 or in range. -/
structure Ranged (σ : Tables) : Prop where
  user : ∀ c, σ (.client2user c) = -1 ∨ ∃ u : User, σ (.client2user c) = u
  client : ∀ u, σ (.user2client u) = -1 ∨ ∃ c : Client, σ (.user2client u) = c

/-- A logout that succeeds names the user who is logged in on its own connection. -/
def OwnLogout (σ : Tables) : Client × Request → Prop
  | (c, .logout u) =>
    σ (.client2user c) ≠ -1 → σ (.user2client u) ≠ -1 → σ (.client2user c) = u
  | _ => True

/-- Two sets of tables with the same sessions. -/
def SameSessions (σ σ' : Tables) : Prop :=
  (∀ c, σ' (.client2user c) = σ (.client2user c)) ∧
    ∀ u, σ' (.user2client u) = σ (.user2client u)

theorem SameSessions.refl (σ : Tables) : SameSessions σ σ := ⟨fun _ => rfl, fun _ => rfl⟩

theorem sameSessions_seat (σ : Tables) (i : SeatNum) (v : ℤ) :
    SameSessions σ (Function.update σ (.seat i) v) := by
  constructor <;> intro x <;> simp

theorem sameSessions_ite {σ σ' : Tables} {r r' : Reply} {p : Prop} [Decidable p]
    (h : SameSessions σ σ') : SameSessions σ (if p then (σ', r) else (σ, r')).1 := by
  split
  · exact h
  · exact SameSessions.refl σ

theorem SameSessions.ranged {σ σ' : Tables} (h : SameSessions σ σ') (hσ : Ranged σ) :
    Ranged σ' := by
  constructor
  · intro c
    rw [h.1]
    exact hσ.user c
  · intro u
    rw [h.2]
    exact hσ.client u

theorem SameSessions.inverse {σ σ' : Tables} (h : SameSessions σ σ') (hσ : Inverse σ) :
    Inverse σ' := by
  intro c u
  rw [h.1, h.2]
  exact hσ c u

theorem inRange_ne (x : Fin 1050) : ((x : ℕ) : ℤ) ≠ -1 := by omega

theorem cast_inj {x y : Fin 1050} (h : ((x : ℕ) : ℤ) = ((y : ℕ) : ℤ)) : x = y :=
  Fin.ext (Int.ofNat.inj h)

section LoggedIn
variable (σ : Tables) (c : Client) (u : User) (passwd : ℤ)

theorem loggedIn_client2user (d : Client) : loggedIn σ c u passwd (.client2user d) =
    if d = c then (u : ℤ) else σ (.client2user d) := by
  unfold loggedIn
  obtain rfl | hne := eq_or_ne d c
  · simp
  · simp [hne]

theorem loggedIn_user2client (v : User) : loggedIn σ c u passwd (.user2client v) =
    if v = u then (c : ℤ) else σ (.user2client v) := by
  unfold loggedIn
  obtain rfl | hne := eq_or_ne v u
  · simp
  · simp [hne]

theorem loggedIn_ranged (h : Ranged σ) : Ranged (loggedIn σ c u passwd) := by
  constructor
  · intro d
    rw [loggedIn_client2user]
    split
    · exact .inr ⟨u, rfl⟩
    · exact h.user d
  · intro v
    rw [loggedIn_user2client]
    split
    · exact .inr ⟨c, rfl⟩
    · exact h.client v

theorem loggedIn_inverse (h : Inverse σ) (hc : σ (.client2user c) = -1)
    (hu : σ (.user2client u) = -1) : Inverse (loggedIn σ c u passwd) := by
  intro d v
  rw [loggedIn_client2user, loggedIn_user2client]
  by_cases hd : d = c <;> by_cases hv : v = u
  · simp [hd, hv]
  · subst hd
    rw [if_pos rfl, if_neg hv]
    refine iff_of_false (fun he => hv (cast_inj he).symm) fun he => ?_
    exact inRange_ne v (((h d v).2 he).symm.trans hc)
  · subst hv
    rw [if_neg hd, if_pos rfl]
    refine iff_of_false (fun he => ?_) fun he => hd (cast_inj he).symm
    exact inRange_ne d (((h d v).1 he).symm.trans hu)
  · rw [if_neg hd, if_neg hv]
    exact h d v

end LoggedIn

section LoggedOut
variable (σ : Tables) (c : Client) (u : User)

theorem loggedOut_client2user (d : Client) : loggedOut σ c u (.client2user d) =
    if d = c then -1 else σ (.client2user d) := by
  unfold loggedOut
  obtain rfl | hne := eq_or_ne d c
  · simp
  · simp [hne]

theorem loggedOut_user2client (v : User) : loggedOut σ c u (.user2client v) =
    if v = u then -1 else σ (.user2client v) := by
  unfold loggedOut
  obtain rfl | hne := eq_or_ne v u
  · simp
  · simp [hne]

theorem loggedOut_ranged (h : Ranged σ) : Ranged (loggedOut σ c u) := by
  constructor
  · intro d
    rw [loggedOut_client2user]
    split
    · exact .inl rfl
    · exact h.user d
  · intro v
    rw [loggedOut_user2client]
    split
    · exact .inl rfl
    · exact h.client v

/-- A logout keeps the tables inverse if and only if it ends one session. -/
theorem loggedOut_inverse (hr : Ranged σ) (h : Inverse σ) (hc : σ (.client2user c) ≠ -1) :
    Inverse (loggedOut σ c u) ↔ σ (.client2user c) = u := by
  constructor
  · intro h'
    obtain ⟨v, hv⟩ := (hr.user c).resolve_left hc
    by_contra hne
    have hvu : v ≠ u := by
      rintro rfl
      exact hne hv
    -- `v` still points to the connection, which is free now
    have hback : loggedOut σ c u (.user2client v) = c := by
      rw [loggedOut_user2client, if_neg hvu]
      exact (h c v).1 hv
    have hfree := (h' c v).2 hback
    rw [loggedOut_client2user, if_pos rfl] at hfree
    exact inRange_ne v hfree.symm
  · intro hcu d v
    rw [loggedOut_client2user, loggedOut_user2client]
    by_cases hd : d = c <;> by_cases hv : v = u
    · rw [if_pos hd, if_pos hv]
      exact iff_of_false (inRange_ne v).symm (inRange_ne d).symm
    · subst hd
      rw [if_pos rfl, if_neg hv]
      refine iff_of_false (inRange_ne v).symm fun he => hv ?_
      exact cast_inj (((h d v).2 he).symm.trans hcu)
    · subst hv
      rw [if_neg hd, if_pos rfl]
      refine iff_of_false (fun he => hd ?_) (inRange_ne d).symm
      exact cast_inj (((h d v).1 he).symm.trans ((h c v).1 hcu))
    · rw [if_neg hd, if_neg hv]
      exact h d v

end LoggedOut

theorem serve_ranged (σ : Tables) (op : Client × Request) (h : Ranged σ) :
    Ranged (serve σ op) := by
  obtain ⟨c, req⟩ := op
  unfold serve handler
  cases req with
  | login u passwd =>
    dsimp only
    rw [login_eval]
    split
    · exact loggedIn_ranged σ c u passwd h
    · exact h
  | reserve u i =>
    dsimp only
    rw [reserve_eval]
    exact (sameSessions_ite (sameSessions_seat σ i _)).ranged h
  | checkReservation u i =>
    dsimp only
    rw [checkReservation_eval]
    exact h
  | cancelReservation u i =>
    dsimp only
    rw [cancelReservation_eval]
    exact (sameSessions_ite (sameSessions_seat σ i _)).ranged h
  | logout u =>
    dsimp only
    rw [logout_eval]
    split
    · exact loggedOut_ranged σ c u h
    · exact h

/-- One request keeps the tables inverse if and only if it is not the logout of another. -/
theorem serve_inverse (σ : Tables) (op : Client × Request) (hr : Ranged σ) (h : Inverse σ) :
    Inverse (serve σ op) ↔ OwnLogout σ op := by
  obtain ⟨c, req⟩ := op
  unfold serve handler OwnLogout
  cases req with
  | login u passwd =>
    dsimp only
    rw [login_eval]
    refine iff_of_true ?_ trivial
    split
    case isTrue hoff => exact loggedIn_inverse σ c u passwd h hoff.1 hoff.2.1
    case isFalse => exact h
  | reserve u i =>
    dsimp only
    rw [reserve_eval]
    exact iff_of_true ((sameSessions_ite (sameSessions_seat σ i _)).inverse h) trivial
  | checkReservation u i =>
    dsimp only
    rw [checkReservation_eval]
    exact iff_of_true h trivial
  | cancelReservation u i =>
    dsimp only
    rw [cancelReservation_eval]
    exact iff_of_true ((sameSessions_ite (sameSessions_seat σ i _)).inverse h) trivial
  | logout u =>
    dsimp only
    rw [logout_eval]
    split
    case isTrue hon =>
      refine (loggedOut_inverse σ c u hr h hon.1).trans ?_
      exact ⟨fun he _ _ => he, fun hown => hown hon.1 hon.2⟩
    case isFalse hoff =>
      exact iff_of_true h fun hc hu => absurd ⟨hc, hu⟩ hoff

theorem initTables_ranged : Ranged initTables := ⟨fun _ => .inl rfl, fun _ => .inl rfl⟩

theorem initTables_inverse : Inverse initTables := by
  intro c u
  exact iff_of_false (inRange_ne u).symm (inRange_ne c).symm

/-- In a run of requests the session tables are inverse to each other in every state if and
only if every logout that succeeds names the user who is logged in on its connection. -/
theorem sessions_inverse (ops : List (Client × Request)) :
    Machine.Along serve OwnLogout initTables ops ↔
      ∀ pre, pre <+: ops → Inverse (Machine.run serve initTables pre) :=
  Machine.along_iff serve_ranged serve_inverse initTables_ranged initTables_inverse ops

/-- Users 0 and 1 log in on connections 1 and 2, and connection 1 logs user 1 out. -/
def foreignLogout : List (Client × Request) :=
  [(1, .login 0 5), (2, .login 1 7), (1, .logout 1)]

theorem foreignLogout_breaks : ¬ ∀ ops, Inverse (Machine.run serve initTables ops) := by
  intro h
  have hfree : Machine.run serve initTables foreignLogout (.client2user 1) = -1 := by decide
  have hback : Machine.run serve initTables foreignLogout (.user2client 0) = (1 : Client) := by
    decide
  have := (h foreignLogout 1 0).2 hback
  rw [hfree] at this
  exact absurd this (by decide)

/-- User 0 logs in on connection 1 and reserves the given seats. -/
def reservations (l : List SeatNum) : List (Client × Request) :=
  (1, .login 0 5) :: l.map fun i => (1, .reserve 0 i)

/-- Seats that are free or the user's own can all be reserved. -/
theorem run_reserve {σ : Tables} {c : Client} {u : User} (hs : Session σ c u)
    (hfree : ∀ i, σ (.seat i) = -1 ∨ σ (.seat i) = u) (l : List SeatNum) :
    Session (Machine.run serve σ (l.map fun i => (c, .reserve u i))) c u ∧
      ∀ i, i ∈ l ∨ σ (.seat i) = u →
        Machine.run serve σ (l.map fun i => (c, .reserve u i)) (.seat i) = u := by
  induction l generalizing σ with
  | nil => exact ⟨hs, fun i hi => hi.resolve_left List.not_mem_nil⟩
  | cons j l ih =>
    have hnext : serve σ (c, .reserve u j) = Function.update σ (.seat j) u := by
      change ((reserve c u j).eval σ).1 = _
      rw [reserve_eval]
      split
      case isTrue => rfl
      case isFalse hno =>
        have hj := (hfree j).resolve_left fun he => hno ⟨hs, he⟩
        exact (Function.update_eq_self_iff.2 hj.symm).symm
    have hseat : ∀ i, i = j ∨ σ (.seat i) = u →
        Function.update σ (.seat j) (u : ℤ) (.seat i) = u := by
      intro i hi
      by_cases hij : i = j
      · rw [hij, Function.update_self]
      · rw [Function.update_of_ne (by simpa using hij)]
        exact hi.resolve_left hij
    have hstep := @ih (Function.update σ (.seat j) u) (by simpa [Session] using hs) fun i => by
      by_cases hij : i = j
      · exact .inr (hseat i (.inl hij))
      · rw [Function.update_of_ne (by simpa using hij)]
        exact hfree i
    rw [List.map_cons, Machine.run_cons, hnext]
    refine ⟨hstep.1, fun i hi => hstep.2 i ?_⟩
    rcases hi with hi | hi
    · exact (List.mem_cons.1 hi).symm.imp_right fun he => hseat i (.inl he)
    · exact .inr (hseat i (.inr hi))

theorem run_reservations :
    Session (Machine.run serve initTables (reservations (List.finRange 256))) 1 0 ∧
      ∀ i, Machine.run serve initTables (reservations (List.finRange 256)) (.seat i) =
        ((0 : User) : ℤ) := by
  have hlogin : Session (serve initTables (1, .login 0 5)) 1 0 := by decide
  have hfree : ∀ i : SeatNum, serve initTables (1, .login 0 5) (.seat i) = -1 := fun i => rfl
  obtain ⟨hs, hall⟩ := run_reserve hlogin (fun i => .inl (hfree i)) (List.finRange 256)
  rw [reservations, Machine.run_cons]
  exact ⟨hs, fun i => hall i (.inl (List.mem_finRange i))⟩

end Seat
