import Coursework.Seat.Sessions

/-! Connections of the seat server over time: descriptors are closed by the exit request and
used again, and what a connection may do depends on the tables, not on its own logins. -/
namespace Seat

/-- A request that succeeded, by the connection that made it. -/
inductive Event where
  | login (k : ℕ) (u : User) (passwd : ℤ)
  | granted (k : ℕ) (u : User)
  | logout (k : ℕ) (u : User)
  deriving DecidableEq

/-- The tables, the connection on every descriptor, the number of connections so far, and
the requests that succeeded. -/
structure Net where
  tables : Tables
  conn : Client → Option ℕ
  accepted : ℕ
  log : List Event

/-- The steps. The thread of a connection keeps its descriptor open when the client is gone,
and goes on to execute requests. -/
inductive NetOp where
  | accept (c : Client)
  | request (c : Client) (req : Request)
  | exit (c : Client)
  | disconnect (c : Client)

def initNet : Net := ⟨initTables, fun _ => none, 0, []⟩

/-- The record of a request. -/
def eventOf (k : ℕ) : Request → Event
  | .login u passwd => .login k u passwd
  | .logout u => .logout k u
  | req => .granted k req.user

/-- A step; one that cannot happen in the state does nothing. -/
def netStep (s : Net) : NetOp → Net
  | .accept c =>
    if s.conn c = none then
      { s with conn := Function.update s.conn c (some s.accepted), accepted := s.accepted + 1 }
    else s
  | .request c req =>
    match s.conn c with
    | none => s
    | some k =>
      let out := (handler c req).eval s.tables
      { s with
        tables := out.1
        log := if out.2.query.user = -1 then s.log else s.log ++ [eventOf k req] }
  | .exit c => { s with conn := Function.update s.conn c none }
  | .disconnect _ => s

/-- The password of the first login of a user. -/
def firstPasswd (u : User) : List Event → Option ℤ
  | [] => none
  | .login _ v passwd :: log => if v = u then some passwd else firstPasswd u log
  | _ :: log => firstPasswd u log

/-- A logout by the connection or of the user. -/
def Event.Ends (k : ℕ) (u : User) : Event → Prop
  | .logout k' u' => k' = k ∨ u' = u
  | _ => False

/-- The connection has logged in as the user with the user's password, and neither the
connection nor the user has logged out since. -/
def Authorized (k : ℕ) (u : User) (log : List Event) : Prop :=
  ∃ before after passwd, log = before ++ .login k u passwd :: after ∧
    firstPasswd u log = some passwd ∧ ∀ e ∈ after, ¬e.Ends k u

/-- Every request that was granted was authorized at that time. -/
def Isolated (log : List Event) : Prop :=
  ∀ before k u after, log = before ++ .granted k u :: after → Authorized k u before

/-- A connection exits only after its session has ended, and no login that succeeds has the
password -1, which stands for no password. -/
def Clean (s : Net) : NetOp → Prop
  | .exit c => ∀ u, ¬Session s.tables c u
  | .request c (.login u passwd) => LoggedOff s.tables c u passwd → passwd ≠ -1
  | _ => True

theorem firstPasswd_append (u : User) (log log' : List Event) :
    firstPasswd u (log ++ log') = (firstPasswd u log).or (firstPasswd u log') := by
  induction log with
  | nil => rfl
  | cons e log ih =>
    cases e with
    | login k v passwd =>
      rw [List.cons_append, firstPasswd, firstPasswd]
      split
      · rfl
      · exact ih
    | granted k v => exact ih
    | logout k v => exact ih

theorem firstPasswd_snoc {u : User} {e : Event} (he : firstPasswd u [e] = none)
    (log : List Event) : firstPasswd u (log ++ [e]) = firstPasswd u log := by
  rw [firstPasswd_append, he, Option.or_none]

theorem Authorized.append {k : ℕ} {u : User} {log : List Event} (h : Authorized k u log)
    {e : Event} (he : ¬e.Ends k u) : Authorized k u (log ++ [e]) := by
  obtain ⟨before, after, passwd, rfl, hpw, hafter⟩ := h
  refine ⟨before, after ++ [e], passwd, by simp, ?_, ?_⟩
  · rw [firstPasswd_append, hpw]
    rfl
  · intro e' he'
    obtain he' | he' := List.mem_append.1 he'
    · exact hafter e' he'
    · rw [List.mem_singleton.1 he']
      exact he

theorem Isolated.append {log : List Event} (h : Isolated log) {e : Event}
    (he : ∀ k u, e = .granted k u → Authorized k u log) : Isolated (log ++ [e]) := by
  intro before k u after heq
  obtain rfl | ⟨after, x, rfl⟩ := List.eq_nil_or_concat after
  · obtain ⟨rfl, hlast⟩ := List.append_inj' heq rfl
    exact he k u (List.head_eq_of_cons_eq hlast)
  · have heq' : log ++ [e] = (before ++ .granted k u :: after) ++ [x] := by simpa using heq
    exact h before k u after (List.append_inj' heq' rfl).1

/-- The password that an entry of `password` stands for. -/
def entryPasswd (entry : ℤ) : Option ℤ := if entry = -1 then none else some entry

/-- What holds in every state of a run with clean exits. -/
structure Guarded (s : Net) : Prop where
  session : ∀ c k u, s.conn c = some k → Session s.tables c u → Authorized k u s.log
  closed : ∀ c u, s.conn c = none → ¬Session s.tables c u
  fresh : ∀ c k, s.conn c = some k → k < s.accepted
  apart : ∀ c d k, s.conn c = some k → s.conn d = some k → c = d
  passwd : ∀ u, firstPasswd u s.log = entryPasswd (s.tables (.password u))
  isolated : Isolated s.log

theorem initNet_guarded : Guarded initNet := by
  refine ⟨?_, ?_, ?_, ?_, fun _ => rfl, ?_⟩
  · intro c k u h
    cases h
  · intro c u _ h
    exact inRange_ne u h.1.symm
  · intro c k h
    cases h
  · intro c d k h
    cases h
  · intro before k u after h
    cases before <;> cases h

section Sessions
variable {σ : Tables} {c d : Client} {u v : User}

theorem SameSessions.session {σ' : Tables} (h : SameSessions σ σ') :
    Session σ' d v ↔ Session σ d v := by
  unfold Session
  rw [h.1, h.2]

theorem session_loggedIn {passwd : ℤ} (h : Session (loggedIn σ c u passwd) d v) :
    d = c ∧ v = u ∨ d ≠ c ∧ v ≠ u ∧ Session σ d v := by
  obtain ⟨h1, h2⟩ := h
  rw [loggedIn_client2user] at h1
  rw [loggedIn_user2client] at h2
  by_cases hd : d = c
  · rw [if_pos hd] at h1
    exact .inl ⟨hd, (cast_inj h1).symm⟩
  · rw [if_neg hd] at h1
    by_cases hv : v = u
    · rw [if_pos hv] at h2
      exact absurd (cast_inj h2).symm hd
    · rw [if_neg hv] at h2
      exact .inr ⟨hd, hv, h1, h2⟩

theorem session_loggedOut (h : Session (loggedOut σ c u) d v) :
    d ≠ c ∧ v ≠ u ∧ Session σ d v := by
  obtain ⟨h1, h2⟩ := h
  rw [loggedOut_client2user] at h1
  rw [loggedOut_user2client] at h2
  by_cases hd : d = c
  · rw [if_pos hd] at h1
    exact absurd h1.symm (inRange_ne v)
  · rw [if_neg hd] at h1
    by_cases hv : v = u
    · rw [if_pos hv] at h2
      exact absurd h2.symm (inRange_ne d)
    · rw [if_neg hv] at h2
      exact ⟨hd, hv, h1, h2⟩

end Sessions

section Steps
variable {s : Net} (h : Guarded s)
include h

theorem Guarded.accept {c : Client} (hc : s.conn c = none) : Guarded { s with
    conn := Function.update s.conn c (some s.accepted), accepted := s.accepted + 1 } := by
  have hold {d : Client} {k : ℕ} (hne : d ≠ c)
      (hd : Function.update s.conn c (some s.accepted) d = some k) : s.conn d = some k := by
    rwa [Function.update_of_ne hne] at hd
  have hnew {k : ℕ} (hk : Function.update s.conn c (some s.accepted) c = some k) :
      k = s.accepted := by
    rw [Function.update_self] at hk
    exact (Option.some.inj hk).symm
  refine ⟨fun d k u hd hsess => ?_, fun d u hd => ?_, fun d k hd => ?_, fun d e k hd he => ?_,
    h.passwd, h.isolated⟩
  · obtain rfl | hne := eq_or_ne d c
    · exact absurd hsess (h.closed d u hc)
    · exact h.session d k u (hold hne hd) hsess
  · obtain rfl | hne := eq_or_ne d c
    · exact h.closed d u hc
    · exact h.closed d u ((Function.update_of_ne hne _ _).symm.trans hd)
  · obtain rfl | hne := eq_or_ne d c
    · rw [hnew hd]
      exact Nat.lt_succ_self _
    · exact (h.fresh d k (hold hne hd)).trans (Nat.lt_succ_self _)
  · by_cases hdc : d = c <;> by_cases hec : e = c
    · rw [hdc, hec]
    · rw [hdc] at hd
      rw [hnew hd] at he
      exact absurd (h.fresh e _ (hold hec he)) (Nat.lt_irrefl _)
    · rw [hec] at he
      rw [hnew he] at hd
      exact absurd (h.fresh d _ (hold hdc hd)) (Nat.lt_irrefl _)
    · exact h.apart d e k (hold hdc hd) (hold hec he)

theorem Guarded.exit {c : Client} (hc : ∀ u, ¬Session s.tables c u) :
    Guarded { s with conn := Function.update s.conn c none } := by
  have hold {d : Client} {k : ℕ} (hd : Function.update s.conn c none d = some k) :
      s.conn d = some k := by
    obtain rfl | hne := eq_or_ne d c
    · rw [Function.update_self] at hd
      cases hd
    · rwa [Function.update_of_ne hne] at hd
  refine ⟨fun d k u hd => h.session d k u (hold hd), fun d u hd => ?_,
    fun d k hd => h.fresh d k (hold hd), fun d e k hd he => h.apart d e k (hold hd) (hold he),
    h.passwd, h.isolated⟩
  obtain rfl | hne := eq_or_ne d c
  · exact hc u
  · exact h.closed d u ((Function.update_of_ne hne _ _).symm.trans hd)

theorem Guarded.login {c : Client} {k : ℕ} (hc : s.conn c = some k) {u : User} {passwd : ℤ}
    (hoff : LoggedOff s.tables c u passwd) (hpw : passwd ≠ -1) : Guarded { s with
      tables := loggedIn s.tables c u passwd, log := s.log ++ [.login k u passwd] } := by
  have hfirst : firstPasswd u (s.log ++ [.login k u passwd]) = some passwd := by
    rw [firstPasswd_append, firstPasswd, if_pos rfl, h.passwd, entryPasswd]
    split
    case isTrue => rfl
    case isFalse hreg =>
      rw [hoff.2.2.resolve_left hreg]
      rfl
  have hpassword (v : User) : loggedIn s.tables c u passwd (.password v) =
      if v = u then passwd else s.tables (.password v) := by
    unfold loggedIn
    obtain rfl | hne := eq_or_ne v u
    · simp
    · simp [hne]
  refine ⟨fun d k' v hd hsess => ?_, fun d v hd hsess => ?_, h.fresh, h.apart, fun v => ?_, ?_⟩
  · obtain ⟨rfl, rfl⟩ | ⟨hne, -, hold⟩ := session_loggedIn hsess
    · obtain rfl : k' = k := Option.some.inj (hd.symm.trans hc)
      exact ⟨s.log, [], passwd, rfl, hfirst, by simp⟩
    · exact (h.session d k' v hd hold).append id
  · obtain ⟨rfl, rfl⟩ | ⟨hne, -, hold⟩ := session_loggedIn hsess
    · rw [hc] at hd
      cases hd
    · exact h.closed d v hd hold
  · dsimp only
    rw [hpassword]
    by_cases hv : v = u
    · rw [if_pos hv, hv, hfirst, entryPasswd, if_neg hpw]
    · have hother : firstPasswd v [.login k u passwd] = none := if_neg (Ne.symm hv)
      rw [if_neg hv, firstPasswd_snoc hother]
      exact h.passwd v
  · apply h.isolated.append
    intro k' u' he
    cases he

theorem Guarded.logout {c : Client} {k : ℕ} (hc : s.conn c = some k) (u : User) : Guarded
    { s with tables := loggedOut s.tables c u, log := s.log ++ [.logout k u] } := by
  have hpassword (v : User) : loggedOut s.tables c u (.password v) = s.tables (.password v) := by
    simp [loggedOut]
  refine ⟨fun d k' v hd hsess => ?_, fun d v hd hsess => ?_, h.fresh, h.apart, fun v => ?_, ?_⟩
  · obtain ⟨hdc, hvu, hold⟩ := session_loggedOut hsess
    apply (h.session d k' v hd hold).append
    rintro (rfl | rfl)
    · exact hdc (h.apart d c k hd hc)
    · exact hvu rfl
  · exact h.closed d v hd (session_loggedOut hsess).2.2
  · dsimp only
    rw [hpassword, firstPasswd_snoc rfl]
    exact h.passwd v
  · apply h.isolated.append
    intro k' u' he
    cases he

/-- A request on a seat, which is granted only within a session. -/
theorem Guarded.seat {σ : Tables} (hsame : SameSessions s.tables σ)
    (hpassword : ∀ u, σ (.password u) = s.tables (.password u)) {c : Client} {k : ℕ}
    (hc : s.conn c = some k) {u : User} {p : Prop} [Decidable p]
    (hp : ¬p → Session s.tables c u) : Guarded { s with
      tables := σ, log := if p then s.log else s.log ++ [.granted k u] } := by
  have hlog {k' : ℕ} {v : User} (ha : Authorized k' v s.log) :
      Authorized k' v (if p then s.log else s.log ++ [.granted k u]) := by
    split
    · exact ha
    · exact ha.append id
  refine ⟨fun d k' v hd hsess => ?_, fun d v hd hsess => ?_, h.fresh, h.apart, fun v => ?_, ?_⟩
  · exact hlog (h.session d k' v hd (hsame.session.1 hsess))
  · exact h.closed d v hd (hsame.session.1 hsess)
  · dsimp only
    rw [hpassword, ← h.passwd v]
    split
    · rfl
    · exact firstPasswd_snoc rfl s.log
  · dsimp only
    split
    case isTrue => exact h.isolated
    case isFalse hn =>
      apply h.isolated.append
      intro k' u' he
      cases he
      exact h.session c k u hc (hp hn)

theorem Guarded.request {c : Client} {k : ℕ} (hc : s.conn c = some k) (req : Request)
    (hclean : Clean s (.request c req)) : Guarded { s with
      tables := ((handler c req).eval s.tables).1
      log := if ((handler c req).eval s.tables).2.query.user = -1 then s.log
        else s.log ++ [eventOf k req] } := by
  unfold handler
  cases req with
  | login u passwd =>
    dsimp only
    rw [login_eval]
    split
    case isTrue hoff => exact h.login hc hoff (hclean hoff)
    case isFalse => exact h
  | reserve u i =>
    dsimp only
    rw [reserve_eval]
    apply h.seat (sameSessions_ite (sameSessions_seat s.tables i _)) _ hc
    · split
      case isTrue hok => exact fun _ => hok.1
      case isFalse => exact fun hn => absurd rfl hn
    · intro v
      split <;> simp
  | checkReservation u i =>
    dsimp only
    rw [checkReservation_eval]
    apply h.seat (SameSessions.refl _) (fun _ => rfl) hc
    split
    case isTrue hok => exact fun _ => hok
    case isFalse => exact fun hn => absurd rfl hn
  | cancelReservation u i =>
    dsimp only
    rw [cancelReservation_eval]
    apply h.seat (sameSessions_ite (sameSessions_seat s.tables i _)) _ hc
    · split
      case isTrue hok => exact fun _ => hok.1
      case isFalse => exact fun hn => absurd rfl hn
    · intro v
      split <;> simp
  | logout u =>
    dsimp only
    rw [logout_eval]
    split
    case isTrue hon => exact h.logout hc u
    case isFalse => exact h

end Steps

theorem netStep_guarded (s : Net) (op : NetOp) (h : Guarded s) (hclean : Clean s op) :
    Guarded (netStep s op) := by
  cases op with
  | accept c =>
    rw [netStep]
    split
    case isTrue hc => exact h.accept hc
    case isFalse => exact h
  | request c req =>
    rw [netStep]
    split
    · exact h
    · rename_i k hc
      exact h.request hc req hclean
  | exit c => exact h.exit hclean
  | disconnect c => exact h

/-- In every run in which a connection exits only after its session has ended, and in which no
user logs in with the password -1, a request is granted only within the connection's own
session. -/
theorem sessions_isolated (ops : List NetOp) (h : Machine.Along netStep Clean initNet ops) :
    Isolated (Machine.run netStep initNet ops).log :=
  (Machine.invariant netStep_guarded ops initNet initNet_guarded h).isolated

/-- A connection logs in, reserves a seat, logs out and exits. -/
def cleanVisit : List NetOp :=
  [.accept 1, .request 1 (.login 0 5), .request 1 (.reserve 0 9), .request 1 (.logout 0),
    .exit 1]

theorem sessions_isolated_cleanVisit : Isolated (Machine.run netStep initNet cleanVisit).log := by
  apply sessions_isolated
  have hpasswd : (5 : ℤ) ≠ -1 := by decide
  refine ⟨trivial, fun _ => hpasswd, trivial, trivial, fun u hu => inRange_ne u ?_, trivial⟩
  rw [← hu.1]
  decide

/-- The first connection exits without a logout, and the next one gets its descriptor. -/
def inherited : List NetOp :=
  [.accept 1, .request 1 (.login 0 5), .exit 1, .accept 1, .request 1 (.reserve 0 9)]

theorem inherited_granted : ¬ ∀ ops, Isolated (Machine.run netStep initNet ops).log := by
  intro h
  have hlog : (Machine.run netStep initNet inherited).log = [.login 0 0 5, .granted 1 0] := by
    decide
  obtain ⟨before, after, passwd, heq, -⟩ := h inherited [.login 0 0 5] 1 0 [] hlog
  cases before with
  | nil => cases heq
  | cons e before => cases before <;> cases heq

/-- A user whose password is -1 counts as not registered: another password is accepted. -/
def reregistered : List NetOp :=
  [.accept 1, .request 1 (.login 0 (-1)), .request 1 (.logout 0), .accept 2,
    .request 2 (.login 0 7), .request 2 (.reserve 0 9)]

theorem reregistered_granted :
    (Machine.run netStep initNet reregistered).log =
      [.login 0 0 (-1), .logout 0 0, .login 1 0 7, .granted 1 0] := by decide

end Seat
