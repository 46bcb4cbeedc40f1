import Coursework.Seat.Sessions
import Coursework.Lib.Atomicity

/-! The threads of the seat server and their mutexes: every interleaving of their steps
answers as a server that handles one request at a time. -/
namespace Seat
open Shared Locking

/-- The three arrays of mutexes. -/
inductive Mutex where
  | c2u (c : Client)
  | u2c (u : User)
  | seat (i : SeatNum)
  deriving DecidableEq

/-- The mutexes that a handler takes, in this order, and gives back in the same order. -/
def mutexes : Client × Request → List Mutex
  | (c, .login u _) | (c, .logout u) => [.c2u c, .u2c u]
  | (c, .reserve u i) | (c, .checkReservation u i) | (c, .cancelReservation u i) =>
    [.c2u c, .u2c u, .seat i]

/-- The threads of the server. -/
def server : Service (Client × Request) Mutex Cell ℤ Reply where
  locks := mutexes
  unlocks := mutexes
  body op := handler op.1 op.2

/-- The server with idle threads `τ` after some steps. -/
def serverRun {τ : Type*} [DecidableEq τ] (ops : List (Input τ (Client × Request))) :
    State τ (Client × Request) Mutex Cell ℤ Reply :=
  Machine.run (step server) (init initTables) ops

/-- The mutex of an entry. -/
def mutexOf : Cell → Mutex
  | .client2user c => .c2u c
  | .user2client u | .password u => .u2c u
  | .seat i => .seat i

/-- What a handler can tell apart: everything that it has locked, and of any seat whether its
user holds it. -/
def view (op : Client × Request) (x : Cell) (a b : ℤ) : Prop :=
  (mutexOf x ∈ mutexes op → a = b) ∧
    ∀ i, x = .seat i → (a = op.2.user ↔ b = op.2.user)

/-- What a handler may change: entries that it has locked, and of the seats, its user takes a
free one or frees one of its own. -/
def guar (op : Client × Request) (x : Cell) (a b : ℤ) : Prop :=
  mutexOf x ∈ mutexes op ∧
    ∀ i, x = .seat i → a = -1 ∧ b = op.2.user ∨ a = op.2.user ∧ b = -1

/-- The order "c2u->u2c->seat". -/
def Mutex.rank : Mutex → ℕ
  | .c2u _ => 0
  | .u2c _ => 1
  | .seat _ => 2

theorem mutexes_sorted (op : Client × Request) :
    (mutexes op).Pairwise fun l l' => l.rank < l'.rank := by
  obtain ⟨c, req⟩ := op
  cases req <;> simp [mutexes, Mutex.rank]

theorem mutexes_user (op : Client × Request) : Mutex.u2c op.2.user ∈ mutexes op := by
  obtain ⟨c, req⟩ := op
  cases req <;> simp [mutexes, Request.user]

theorem mutexes_client (op : Client × Request) : Mutex.c2u op.1 ∈ mutexes op := by
  obtain ⟨c, req⟩ := op
  cases req <;> simp [mutexes]

theorem view_equivalence (op : Client × Request) (x : Cell) : Equivalence (view op x) := by
  refine ⟨fun a => ⟨fun _ => rfl, fun _ _ => Iff.rfl⟩, fun h => ?_, fun h h' => ?_⟩
  · exact ⟨fun hm => (h.1 hm).symm, fun i hi => (h.2 i hi).symm⟩
  · exact ⟨fun hm => (h.1 hm).trans (h'.1 hm), fun i hi => (h.2 i hi).trans (h'.2 i hi)⟩

/-- Handlers that can run together act for different users, so that neither can see what the
other does. -/
theorem guar_stable (op op' : Client × Request) (hdisj : (mutexes op).Disjoint (mutexes op'))
    (x : Cell) (a b : ℤ) (h : guar op x a b) : view op' x a b := by
  refine ⟨fun hm => absurd hm (hdisj h.1), fun i hi => ?_⟩
  have hne : op.2.user ≠ op'.2.user := by
    intro heq
    exact hdisj (mutexes_user op) (heq ▸ mutexes_user op')
  have hcast : ((op.2.user : ℕ) : ℤ) ≠ ((op'.2.user : ℕ) : ℤ) := fun he => hne (cast_inj he)
  have hfree := inRange_ne op'.2.user
  obtain ⟨rfl, rfl⟩ | ⟨rfl, rfl⟩ := h.2 i hi
  · exact iff_of_false hfree.symm hcast
  · exact iff_of_false hcast hfree.symm

section Handlers
variable {op : Client × Request}

/-- The handler of `op` may execute this program. -/
abbrev Within (op : Client × Request) (p : Prog Cell ℤ Reply) : Prop :=
  p.Within (fun x => mutexOf x ∈ mutexes op) (view op)

theorem within_read {x : Cell} {k : ℤ → Prog Cell ℤ Reply} (hx : mutexOf x ∈ mutexes op)
    (hk : ∀ a, Within op (k a)) : Within op (.read x k) :=
  ⟨fun _ _ h => congrArg k (h.1 hx), hk⟩

theorem within_ite {b : Prop} [Decidable b] {p q : Prog Cell ℤ Reply} (hp : Within op p)
    (hq : Within op q) : Within op (if b then p else q) := by
  split
  · exact hp
  · exact hq

theorem ifLoggedIn_within {fail : Reply} {p : Prog Cell ℤ Reply} (hp : Within op p) :
    Within op (ifLoggedIn op.1 op.2.user fail p) := by
  refine within_read (mutexes_client op) fun a => within_ite trivial ?_
  exact within_read (mutexes_user op) fun a => within_ite trivial hp

theorem scanSeats_within (l send : List SeatNum) :
    Within op (scanSeats op.2.user l send) := by
  induction l generalizing send with
  | nil => trivial
  | cons i l ih =>
    refine ⟨fun a b h => ?_, fun a => ih _⟩
    simp only [h.2 i rfl]

theorem handler_within (op : Client × Request) : Within op (handler op.1 op.2) := by
  have hc := mutexes_client op
  have hu := mutexes_user op
  obtain ⟨c, req⟩ := op
  cases req with
  | login u passwd =>
    refine within_read hc fun a => within_ite trivial ?_
    refine within_read hu fun a => within_ite trivial ?_
    refine within_read hu fun a => within_ite ⟨hu, hc, hu, trivial⟩ ?_
    exact within_read hu fun a => within_ite trivial ⟨hc, hu, trivial⟩
  | reserve u i =>
    have hi : mutexOf (.seat i) ∈ mutexes (c, .reserve u i) := by simp [mutexOf, mutexes]
    apply ifLoggedIn_within
    exact within_read hi fun a => within_ite trivial ⟨hi, trivial⟩
  | checkReservation u i =>
    apply ifLoggedIn_within
    exact scanSeats_within _ _
  | cancelReservation u i =>
    have hi : mutexOf (.seat i) ∈ mutexes (c, .cancelReservation u i) := by
      simp [mutexOf, mutexes]
    apply ifLoggedIn_within
    exact within_read hi fun a => within_ite trivial ⟨hi, trivial⟩
  | logout u =>
    refine within_read hc fun a => within_ite trivial ?_
    exact within_read hu fun a => within_ite trivial ⟨hc, hu, trivial⟩

theorem guar_session {x : Cell} (hx : mutexOf x ∈ mutexes op) (hseat : ∀ i, x ≠ .seat i)
    (a b : ℤ) : guar op x a b :=
  ⟨hx, fun i hi => absurd hi (hseat i)⟩

theorem polite_ite {G : Cell → ℤ → ℤ → Prop} {b : Prop} [Decidable b]
    {p q : Prog Cell ℤ Reply} {σ : Tables} (hp : b → p.Polite G σ) (hq : ¬b → q.Polite G σ) :
    (if b then p else q).Polite G σ := by
  split
  · exact hp ‹_›
  · exact hq ‹_›

theorem ifLoggedIn_polite {G : Cell → ℤ → ℤ → Prop} {c : Client} {u : User} {fail : Reply}
    {p : Prog Cell ℤ Reply} {σ : Tables} (hp : p.Polite G σ) :
    (ifLoggedIn c u fail p).Polite G σ := by
  refine polite_ite (fun _ => trivial) fun _ => ?_
  exact polite_ite (fun _ => trivial) fun _ => hp

theorem scanSeats_readOnly (u : User) (l send : List SeatNum) :
    (scanSeats u l send).ReadOnly := by
  induction l generalizing send with
  | nil => trivial
  | cons i l ih => exact fun a => ih _

theorem checkReservation_readOnly (c : Client) (u : User) :
    (checkReservation c u).ReadOnly := by
  intro a
  dsimp only
  split
  · trivial
  · intro a
    dsimp only
    split
    · trivial
    · exact scanSeats_readOnly u _ _

theorem scanSeats_polite {G : Cell → ℤ → ℤ → Prop} (u : User) (σ : Tables)
    (l send : List SeatNum) : (scanSeats u l send).Polite G σ := by
  induction l generalizing send with
  | nil => trivial
  | cons i l ih => exact ih _

theorem handler_polite (op : Client × Request) (σ : Tables) :
    (handler op.1 op.2).Polite (guar op) σ := by
  have hc (a b) := guar_session (mutexes_client op) (x := .client2user op.1) (by simp) a b
  have hu (a b) := guar_session (mutexes_user op) (x := .user2client op.2.user) (by simp) a b
  have hp (a b) := guar_session (mutexes_user op) (x := .password op.2.user) (by simp) a b
  obtain ⟨c, req⟩ := op
  cases req with
  | login u passwd =>
    refine polite_ite (fun _ => trivial) fun _ => ?_
    refine polite_ite (fun _ => trivial) fun _ => ?_
    refine polite_ite (fun _ => ⟨hp _ _, hc _ _, hu _ _, trivial⟩) fun _ => ?_
    exact polite_ite (fun _ => trivial) fun _ => ⟨hc _ _, hu _ _, trivial⟩
  | reserve u i =>
    apply ifLoggedIn_polite
    refine polite_ite (fun _ => trivial) fun hfree => ⟨⟨?_, ?_⟩, trivial⟩
    · simp [mutexOf, mutexes]
    · rintro j ⟨⟩
      exact .inl ⟨not_not.1 hfree, rfl⟩
  | checkReservation u i => exact ifLoggedIn_polite (scanSeats_polite u σ _ _)
  | cancelReservation u i =>
    apply ifLoggedIn_polite
    refine polite_ite (fun _ => trivial) fun hmine => ⟨⟨?_, ?_⟩, trivial⟩
    · simp [mutexOf, mutexes]
    · rintro j ⟨⟩
      exact .inr ⟨not_not.1 hmine, rfl⟩
  | logout u =>
    refine polite_ite (fun _ => trivial) fun _ => ?_
    exact polite_ite (fun _ => trivial) fun _ => ⟨hc _ _, hu _ _, trivial⟩

end Handlers

theorem server_discipline : Discipline server mutexOf view guar where
  nodup op := (mutexes_sorted op).imp fun h he => absurd (congrArg Mutex.rank he) h.ne
  released _ := .refl _
  same := view_equivalence
  within := handler_within
  polite := handler_polite
  stable := guar_stable

section Seats
variable {σ σ' : Tables} {i : SeatNum} {u : User}

theorem answer_ne (action : ℤ) (i : SeatNum) : answer action i ≠ answer action (-1) := by
  intro h
  have : ((i : ℕ) : ℤ) = -1 := congrArg (fun r => r.query.user) h
  omega

theorem reserve_granted {c : Client} (h : (reserve c u i).eval σ = (σ', answer 2 i)) :
    σ (.seat i) = -1 ∧ σ' (.seat i) = u := by
  rw [reserve_eval] at h
  split at h
  · next hok =>
    obtain ⟨rfl, -⟩ := Prod.mk.inj h
    exact ⟨hok.2, Function.update_self ..⟩
  · exact absurd (Prod.mk.inj h).2.symm (answer_ne 2 i)

/-- A taken seat stays with its user until the user cancels. -/
theorem seat_kept {op : Client × Request} {r : Reply}
    (h : (handler op.1 op.2).eval σ = (σ', r)) (hu : σ (.seat i) = u) :
    σ' (.seat i) = u ∨ op.2 = .cancelReservation u i ∧ r = answer 4 i := by
  obtain ⟨c, req⟩ := op
  cases req with
  | login v passwd =>
    rw [handler, login_eval] at h
    split at h <;> obtain ⟨rfl, -⟩ := Prod.mk.inj h
    · left
      simpa [loggedIn] using hu
    · exact .inl hu
  | reserve v j =>
    rw [handler, reserve_eval] at h
    split at h <;> obtain ⟨rfl, -⟩ := Prod.mk.inj h
    · next hok =>
      have hne : i ≠ j := by
        rintro rfl
        exact inRange_ne u (hu.symm.trans hok.2)
      left
      simpa [hne] using hu
    · exact .inl hu
  | checkReservation v j =>
    rw [handler, checkReservation_eval] at h
    obtain ⟨rfl, -⟩ := Prod.mk.inj h
    exact .inl hu
  | cancelReservation v j =>
    rw [handler, cancelReservation_eval] at h
    split at h <;> obtain ⟨rfl, rfl⟩ := Prod.mk.inj h
    · next hok =>
      obtain rfl | hne := eq_or_ne i j
      · obtain rfl : v = u := cast_inj (hok.2.symm.trans hu)
        exact .inr ⟨rfl, rfl⟩
      · left
        simpa [hne] using hu
    · exact .inl hu
  | logout v =>
    rw [handler, logout_eval] at h
    split at h <;> obtain ⟨rfl, -⟩ := Prod.mk.inj h
    · left
      simpa [loggedOut] using hu
    · exact .inl hu

variable {τ : Type*} [DecidableEq τ]

/-- Between two reservations of a seat that succeed, the first user cancels. -/
def Exclusive (h : List (Mark τ (Client × Request) Reply)) : Prop :=
  ∀ before t c u i between t' c' u' after,
    h = before ++ .commit t (c, .reserve u i) (answer 2 i) :: between ++
      .commit t' (c', .reserve u' i) (answer 2 i) :: after →
    ∃ t'' c'', .commit t'' (c'', .cancelReservation u i) (answer 4 i) ∈ between

/-- After a reservation that succeeds, the user has the seat until the user cancels. -/
theorem seat_held {before between : List (Mark τ (Client × Request) Reply)} {t : τ} {c : Client}
    {ph : τ → Phase (Client × Request) Reply}
    (hist : Atomic server initTables
      (before ++ .commit t (c, .reserve u i) (answer 2 i) :: between) ph σ)
    (hno : ∀ t' c', .commit t' (c', .cancelReservation u i) (answer 4 i) ∉ between) :
    σ (.seat i) = u := by
  induction between using List.reverseRecOn generalizing ph σ with
  | nil =>
    obtain ⟨ph', σ', -, heff⟩ := hist.last
    exact (reserve_granted heff).2
  | append_singleton between m ih =>
    rw [← List.cons_append, ← List.append_assoc] at hist
    obtain ⟨ph', σ', hprev, heff⟩ := hist.last
    have hbefore := ih hprev fun t' c' hmem => hno t' c' (List.mem_append_left _ hmem)
    cases m with
    | call t' op | reply t' r =>
      rw [show σ = σ' from heff]
      exact hbefore
    | commit t' op r =>
      obtain hkept | ⟨hreq, hr⟩ := seat_kept heff hbefore
      · exact hkept
      · obtain ⟨c', req⟩ := op
        dsimp only at hreq
        refine absurd ?_ (hno t' c')
        rw [← hreq, ← hr]
        exact List.mem_append_right _ List.mem_cons_self

theorem atomic_exclusive {h : List (Mark τ (Client × Request) Reply)}
    {ph : τ → Phase (Client × Request) Reply} (hist : Atomic server initTables h ph σ) :
    Exclusive h := by
  rintro before t c u i between t' c' u' after rfl
  by_contra hno
  push Not at hno
  rw [List.append_cons _ _ after] at hist
  obtain ⟨ph₁, σ₁, hfirst⟩ := hist.before
  obtain ⟨ph₂, σ₂, hprev, heff⟩ := hfirst.last
  have htaken := seat_held hprev hno
  exact inRange_ne u (htaken.symm.trans (reserve_granted heff).1)

end Seats

section Overrun
variable {op : Client × Request}

theorem ends_ite {P : Reply → Prop} {b : Prop} [Decidable b] {p q : Prog Cell ℤ Reply}
    (hp : p.Ends P) (hq : q.Ends P) : (if b then p else q).Ends P := by
  split
  · exact hp
  · exact hq

theorem ifLoggedIn_ends {P : Reply → Prop} {c : Client} {u : User} {fail : Reply}
    {p : Prog Cell ℤ Reply} (hfail : P fail) (hp : p.Ends P) :
    (ifLoggedIn c u fail p).Ends P :=
  fun _ => ends_ite hfail fun _ => ends_ite hfail hp

/-- Only `check_reservation` has an array to write. -/
theorem handler_ends (op : Client × Request) : (handler op.1 op.2).Ends fun r =>
    r.overrun = true → ∃ u i, op.2 = .checkReservation u i := by
  have hdone (action ret : ℤ) : (answer action ret).overrun = true →
      ∃ u i, op.2 = .checkReservation u i := fun h => absurd h Bool.false_ne_true
  obtain ⟨c, req⟩ := op
  cases req with
  | login u passwd =>
    refine fun _ => ends_ite (hdone _ _) fun _ => ends_ite (hdone _ _) fun _ => ?_
    exact ends_ite (hdone _ _) fun _ => ends_ite (hdone _ _) (hdone _ _)
  | reserve u i | cancelReservation u i =>
    exact ifLoggedIn_ends (hdone _ _) fun _ => ends_ite (hdone _ _) (hdone _ _)
  | checkReservation u i =>
    have hscan : ∀ l send, (scanSeats u l send).Ends fun r =>
        r.overrun = true → ∃ v j, Request.checkReservation u i = .checkReservation v j := by
      intro l
      induction l with
      | nil => exact fun _ _ => ⟨u, i, rfl⟩
      | cons j l ih => exact fun _ _ => ih _
    exact ifLoggedIn_ends (hdone _ _) (hscan _ _)
  | logout u => exact fun _ => ends_ite (hdone _ _) fun _ => ends_ite (hdone _ _) (hdone _ _)

variable {τ : Type*} [DecidableEq τ]

/-- No `check_reservation` is at work for a user in session who holds all 256 seats. -/
def Roomy (s : State τ (Client × Request) Mutex Cell ℤ Reply) : Prop :=
  ∀ t c u i p, s.thread t = .inside (c, .checkReservation u i) p → Session s.cells c u →
    ∃ j, s.cells (.seat j) ≠ u

theorem roomy_of_spared {ops : List (Input τ (Client × Request))} {j : SeatNum}
    (h : ∀ t o, .call t o ∈ ops → Mutex.seat j ∉ mutexes o) : Roomy (serverRun ops) := by
  intro t c u i p _ _
  have hseat : (serverRun ops).cells (.seat j) = -1 :=
    cells_kept (S := server) (x := .seat j) (fun o => handler_within o) h
  exact ⟨j, fun hu => inRange_ne u (hu.symm.trans hseat)⟩

/-- Whatever the interleaving, the clients see what a server could answer that handles one
request at a time, and the reply of `check_reservation` is the one for the seats of its user at
the instant of the reply. -/
theorem interleavings_atomic (ops : List (Input τ (Client × Request))) :
    (∃ h ph σ, Atomic server initTables h ph σ ∧ h.filterMap Mark.event = (serverRun ops).log ∧
      ((∀ t, (serverRun ops).thread t = .idle) → (serverRun ops).cells = σ) ∧ Exclusive h) ∧
    (∀ t c u i r, (serverRun ops).thread t = .inside (c, .checkReservation u i) (.done r) →
      r = if Session (serverRun ops).cells c u then seatsReply (seatsOf (serverRun ops).cells u)
        else answer 3 (-1)) ∧
    ¬Deadlock (serverRun ops) := by
  obtain ⟨hheld, h, σ, hr⟩ := refinement server_discipline initTables ops
  refine ⟨⟨h, _, σ, hr.atomic, hr.log, fun hidle => ?_, atomic_exclusive hr.atomic⟩, ?_, ?_⟩
  · apply hr.cells_eq
    intro t o p
    have hfree : (serverRun ops).thread t = .idle := hidle t
    rw [serverRun] at hfree
    rw [hfree]
    simp
  · intro t c u i r ht
    rw [← hr.scan ht (checkReservation_readOnly c u)]
    exact congrArg Prod.snd (checkReservation_eval _ c u)
  · have hrank : ∀ l : Mutex, l.rank ≤ 2 := by
      intro l
      cases l <;> simp [Mutex.rank]
    exact hheld.not_deadlock hrank mutexes_sorted

theorem Roomy.reply {ops : List (Input τ (Client × Request))} (h : Roomy (serverRun ops)) {t : τ}
    {c : Client} {u : User} {i : SeatNum} {r : Reply}
    (ht : (serverRun ops).thread t = .inside (c, .checkReservation u i) (.done r)) :
    r = if Session (serverRun ops).cells c u ∧ seatsOf (serverRun ops).cells u ≠ [] then
      ⟨⟨1, 3, 1⟩, seatsOf (serverRun ops).cells u, false⟩ else answer 3 (-1) := by
  rw [(interleavings_atomic ops).2.1 t c u i r ht]
  by_cases hs : Session (serverRun ops).cells c u
  · obtain ⟨j, hj⟩ := h t c u i _ ht hs
    have hroom : ¬ 256 ≤ (seatsOf (serverRun ops).cells u).length := fun hfull =>
      hj ((seatsOf_full ..).1 hfull j)
    by_cases hno : seatsOf (serverRun ops).cells u = []
    · simp [hs, hno, seatsReply]
    · simp [hs, hno, hroom, seatsReply]
  · simp [hs]

/-- While every check leaves room in its array, no reply comes from a handler that has written
behind it. -/
theorem log_defined {ops : List (Input τ (Client × Request))}
    (h : ∀ pre, pre <+: ops → Roomy (serverRun pre)) {t : τ} {r : Reply}
    (hr : .reply t r ∈ (serverRun ops).log) : r.overrun = false := by
  induction ops using List.reverseRecOn with
  | nil => cases hr
  | append_singleton ops i ih =>
    have hprev := ih fun pre hpre => h pre (hpre.trans (List.prefix_append ..))
    have hrun : serverRun (ops ++ [i]) = step server (serverRun ops) i := Machine.run_append ..
    rw [hrun] at hr
    obtain hlog | ⟨t', o, -, hlog⟩ | ⟨t', o, r', ht, hlog⟩ := step_log server (serverRun ops) i
    · exact hprev (hlog ▸ hr)
    · rw [hlog, List.mem_append, List.mem_singleton] at hr
      exact hprev (hr.resolve_right nofun)
    · rw [hlog, List.mem_append, List.mem_singleton] at hr
      obtain hr | hr := hr
      · exact hprev hr
      obtain ⟨rfl, rfl⟩ := Event.reply.inj hr
      by_contra hover
      have hends := inside_ends (S := server) handler_ends ht
      obtain ⟨c, req⟩ := o
      obtain ⟨u, j, hreq⟩ := hends (by simpa using hover)
      dsimp only at hreq
      subst hreq
      rw [(h ops (List.prefix_append ..)).reply ht] at hover
      refine hover ?_
      split <;> rfl

end Overrun

/-- As long as no `check_reservation` is at work for a user who holds every seat: whatever the
interleaving, the clients see what a server could answer that handles one request at a time,
each in an instant between its call and its reply, and the tables end up the same; no seat is
reserved twice; the reply of `check_reservation` lists the seats of its user at the instant of
the reply; no handler writes behind its array; and the threads do not deadlock. -/
theorem requests_atomic {τ : Type*} [DecidableEq τ] (ops : List (Input τ (Client × Request)))
    (hroom : ∀ pre, pre <+: ops → Roomy (serverRun pre)) :
    (∃ h ph σ, Atomic server initTables h ph σ ∧ h.filterMap Mark.event = (serverRun ops).log ∧
      ((∀ t, (serverRun ops).thread t = .idle) → (serverRun ops).cells = σ) ∧ Exclusive h) ∧
    (∀ t c u i r, (serverRun ops).thread t = .inside (c, .checkReservation u i) (.done r) →
      r = if Session (serverRun ops).cells c u ∧ seatsOf (serverRun ops).cells u ≠ [] then
        ⟨⟨1, 3, 1⟩, seatsOf (serverRun ops).cells u, false⟩ else answer 3 (-1)) ∧
    (∀ t r, .reply t r ∈ (serverRun ops).log → r.overrun = false) ∧ ¬Deadlock (serverRun ops) :=
  ⟨(interleavings_atomic ops).1, fun _ _ _ _ _ ht => (hroom ops List.prefix_rfl).reply ht,
    fun _ _ hr => log_defined hroom hr, (interleavings_atomic ops).2.2⟩

section Alone

/-- A thread that has the server to itself executes any requests one after the other. -/
theorem requests_alone (l : List (Client × Request)) :
    ∃ ops : List (Input Unit (Client × Request)), (∀ t o, .call t o ∈ ops → o ∈ l) ∧
      (serverRun ops).thread () = .idle ∧ (serverRun ops).cells = Machine.run serve initTables l ∧
        ∀ x, (serverRun ops).holder x = none := by
  induction l using List.reverseRecOn with
  | nil => exact ⟨[], nofun, rfl, rfl, fun _ => rfl⟩
  | append_singleton l op ih =>
    obtain ⟨ops, hcalls, hidle, hcells, hfree⟩ := ih
    obtain ⟨n, hthread₁, hcells₁, hfree₁⟩ :=
      served_alone (S := server) (server_discipline.nodup op) hidle hfree
    obtain ⟨m, hthread₂, hcells₂, hfree₂⟩ :=
      finished_alone (S := server) (fun _ hx => hx) hthread₁ hfree₁
    refine ⟨ops ++ .call () op :: .replicate n (.move ()) ++ .replicate m (.move ()),
      fun t o h => ?_, ?_⟩
    · simp only [List.mem_append, List.mem_cons, List.mem_replicate, reduceCtorEq, and_false,
        or_false, Input.call.injEq] at h
      obtain h | ⟨-, rfl⟩ := h
      · exact List.mem_append_left _ (hcalls t o h)
      · exact List.mem_append_right _ (List.mem_singleton_self o)
    · rw [serverRun, Machine.run_append, Machine.run_append]
      refine ⟨hthread₂, hcells₂.trans (hcells₁.trans ?_), hfree₂⟩
      rw [Machine.run_append, ← hcells]
      rfl

/-- User 0 logs in on connection 1, reserves seat 9 and asks for the seats. -/
theorem requests_atomic_alone : ∃ ops : List (Input Unit (Client × Request)),
    (serverRun ops).thread () = .inside (1, .checkReservation 0 0) (.done ⟨⟨1, 3, 1⟩, [9], false⟩) ∧
      (∀ t r, .reply t r ∈ (serverRun ops).log → r.overrun = false) ∧
      ¬Deadlock (serverRun ops) := by
  obtain ⟨ops, hcalls, hidle, hcells, hfree⟩ := requests_alone (reservations [9])
  obtain ⟨n, hthread, hkept, -⟩ := served_alone (S := server) (o := (1, .checkReservation 0 0))
    (server_discipline.nodup _) hidle hfree
  let ops' := ops ++ .call () (1, .checkReservation 0 0) :: .replicate n (.move ())
  have hrun : serverRun ops' = Machine.run (step server) (serverRun ops)
      (.call () (1, .checkReservation 0 0) :: .replicate n (.move ())) := Machine.run_append ..
  rw [← hrun] at hthread hkept
  have hroom : ∀ pre, pre <+: ops' → Roomy (serverRun pre) := by
    refine fun pre hpre => roomy_of_spared (j := 7) fun t o h => ?_
    have hmem : o ∈ reservations [9] ∨ o = (1, .checkReservation 0 0) := by
      have := hpre.subset h
      simp only [ops', List.mem_append, List.mem_cons, List.mem_replicate, reduceCtorEq, and_false,
        or_false, Input.call.injEq] at this
      exact this.imp (hcalls t o) And.right
    rw [reservations, List.map_singleton, List.mem_cons, List.mem_singleton] at hmem
    obtain (rfl | rfl) | rfl := hmem <;> decide
  have hsame : (serverRun ops').cells = Machine.run serve initTables (reservations [9]) := by
    refine hkept.trans (Eq.trans ?_ hcells)
    exact congrArg Prod.fst (checkReservation_eval _ 1 0)
  obtain ⟨-, hreply, hdefined, hdead⟩ := requests_atomic ops' hroom
  have hr := hreply () 1 0 0 _ hthread
  have hseats : seatsOf (Machine.run serve initTables (reservations [9])) 0 = [9] := by
    decide +kernel
  have hsess : Session (Machine.run serve initTables (reservations [9])) 1 0 := by decide
  rw [hsame, hseats, if_pos ⟨hsess, List.cons_ne_nil _ _⟩] at hr
  rw [hr] at hthread
  exact ⟨ops', hthread, hdefined, hdead⟩

/-- User 0 logs in on connection 1, reserves every seat and asks for the seats: the handler
writes behind its array. -/
theorem checkReservation_overruns :
    ∃ (ops : List (Input Unit (Client × Request))) (r : Reply),
      (serverRun ops).thread () = .inside (1, .checkReservation 0 0) (.done r) ∧
        r.overrun = true ∧ r ≠
          if Session (serverRun ops).cells 1 0 ∧ seatsOf (serverRun ops).cells 0 ≠ [] then
            ⟨⟨1, 3, 1⟩, seatsOf (serverRun ops).cells 0, false⟩ else answer 3 (-1) := by
  obtain ⟨ops, -, hidle, hcells, hfree⟩ := requests_alone (reservations (List.finRange 256))
  obtain ⟨hs, hall⟩ := run_reservations
  rw [← hcells] at hs hall
  obtain ⟨n, hthread, -, -⟩ := served_alone (S := server) (o := (1, .checkReservation 0 0))
    (server_discipline.nodup _) hidle hfree
  have hfull := (seatsOf_full (serverRun ops).cells 0).2 hall
  have hne : seatsOf (serverRun ops).cells 0 ≠ [] := by
    intro h
    rw [h] at hfull
    exact absurd hfull (by decide)
  have hover : ((handler 1 (.checkReservation 0 0)).eval (serverRun ops).cells).2.overrun =
      true := by
    change ((checkReservation 1 0).eval _).2.overrun = true
    rw [checkReservation_eval, if_pos hs, seatsReply, if_neg hne]
    exact decide_eq_true hfull
  refine ⟨ops ++ .call () (1, .checkReservation 0 0) :: .replicate n (.move ()), _, ?_, hover,
    fun h => ?_⟩
  · rw [serverRun, Machine.run_append]
    exact hthread
  · rw [h] at hover
    revert hover
    split <;> exact Bool.false_ne_true

end Alone

end Seat
