import Mathlib.Algebra.BigOperators.Group.Finset.Basic
import Coursework.Blackjack.Game

/-! Whether the deck and its counter agree with the cards that have been dealt. -/
namespace Blackjack
open Program

/-- How often a card has been dealt since the start. -/
def Game.times (s : Game) (c : ℕ) : ℕ := s.dealt.countP fun d => d.1 == (c : ℤ)

/-- No card has been dealt more often than the decks have it, `deck` has what is left of each,
the counter is the sum, and `getCard` has returned cards that were left only. -/
structure Conserved (s : Game) : Prop where
  times : ∀ c < 52, s.times c ≤ numberOfDeck
  deck : ∀ c : ℕ, c < 52 → s.deck c + s.times c = numberOfDeck
  sum : s.nokoriCardCnt = ∑ c ∈ Finset.range 52, s.deck c
  nonneg : 0 ≤ s.nokoriCardCnt
  left : ∀ d ∈ s.dealt, 0 < d.2

/-- What the program keeps: `deck` stays full, the counter has gone down by the number of cards
dealt, and these are cards. -/
structure Kept (s : Game) : Prop where
  deck : ∀ c : ℕ, c < 52 → s.deck c = numberOfDeck
  count : s.nokoriCardCnt + s.dealt.length = 208
  nonneg : 0 ≤ s.nokoriCardCnt
  card : ∀ d ∈ s.dealt, ∃ c : ℕ, c < 52 ∧ d = ((c : ℤ), (numberOfDeck : ℤ))

/-- The two agree only before the first card. -/
theorem Kept.conserved_iff_dealt_nil {s : Game} (h : Kept s) : Conserved s ↔ s.dealt = [] := by
  constructor
  · intro hc
    by_contra hne
    obtain ⟨d, dealt, he⟩ := List.exists_cons_of_ne_nil hne
    obtain ⟨c, hlt, rfl⟩ : ∃ c : ℕ, c < 52 ∧ d = ((c : ℤ), (numberOfDeck : ℤ)) :=
      h.card d (by rw [he]; exact List.mem_cons_self)
    have hpos : 0 < s.times c := by
      rw [Game.times, he, List.countP_cons_of_pos (by simp)]
      exact Nat.succ_pos _
    have hsum := hc.deck c hlt
    rw [h.deck c hlt] at hsum
    omega
  · intro he
    have htimes : ∀ c, s.times c = 0 := fun c => by rw [Game.times, he, List.countP_nil]
    have hcount := h.count
    rw [he, List.length_nil] at hcount
    refine ⟨fun c _ => by rw [htimes]; exact Nat.zero_le _, fun c hc => ?_, ?_, h.nonneg, ?_⟩
    · rw [h.deck c hc, htimes]
      rfl
    · have hfull : ∑ _c ∈ Finset.range 52, (numberOfDeck : ℤ) = 208 := by decide
      rw [Finset.sum_congr rfl fun c hc => h.deck c (Finset.mem_range.1 hc), hfull]
      omega
    · rw [he]
      exact fun _ hd => absurd hd List.not_mem_nil

section Steps

theorem keeps_rand : Keeps Kept rand :=
  Keeps.bind Keeps.read fun _ =>
    Keeps.bind (Keeps.change fun _ h => ⟨h.deck, h.count, h.nonneg, h.card⟩) fun _ => Keeps.pure

theorem keeps_input : Keeps Kept input :=
  Keeps.bind Keeps.read fun _ =>
    Keeps.bind (Keeps.change fun _ h => ⟨h.deck, h.count, h.nonneg, h.card⟩) fun _ => Keeps.pure

/-- A card is drawn while the counter is not 0, and `deck` is left as it is. -/
theorem keeps_getCard : Keeps Kept getCard := by
  intro s h
  apply Ensures.read_bind
  by_cases h0 : s.nokoriCardCnt = 0
  · rw [if_pos h0]
    exact Ensures.pure h
  · rw [if_neg h0]
    have hnonneg := h.nonneg
    have hrand : Ensures (fun _ => True) Kept rand s
        (fun _ s' => Kept s' ∧ 0 < s'.nokoriCardCnt) fun _ => Kept := by
      apply Ensures.read_bind
      apply Ensures.change_bind
      refine Ensures.pure ⟨⟨h.deck, h.count, h.nonneg, h.card⟩, ?_⟩
      change 0 < s.nokoriCardCnt
      omega
    refine Ensures.bind hrand fun r s' hs' => ?_
    obtain ⟨h', hpos⟩ := hs'
    refine Ensures.bind (Ensures.assign (P := Kept) ?_) fun _ _ hk => Ensures.pure hk
    have hlt : r % (numberOfDeck * 13) < 52 := Nat.mod_lt _ (by decide)
    refine ⟨h'.deck, ?_, ?_, ?_⟩
    · have hcount := h'.count
      rw [List.length_cons]
      push_cast
      change s'.nokoriCardCnt - 1 + (s'.dealt.length + 1) = 208
      omega
    · change 0 ≤ s'.nokoriCardCnt - 1
      omega
    · intro d hd
      obtain rfl | hd := List.mem_cons.1 hd
      · exact ⟨_, hlt, by rw [h'.deck _ hlt]⟩
      · exact h'.card d hd

theorem keeps_setPlayer (i : ℕ) (f : Game → Human) :
    Keeps Kept (assign fun s => s.setPlayer i (f s) : M Unit) :=
  Keeps.assign fun _ h => ⟨h.deck, h.count, h.nonneg, h.card⟩

theorem keeps_take (i : ℕ) (cur : ℤ) : Keeps Kept (take i cur) := keeps_setPlayer i _

theorem keeps_dealCard (i : ℕ) : Keeps Kept (dealCard i) :=
  Keeps.bind Keeps.read fun _ =>
    Keeps.ite (Keeps.bind keeps_getCard fun c => keeps_take i c) Keeps.pure

theorem keeps_punPai : Keeps Kept punPai :=
  Keeps.bind Keeps.read fun _ =>
    Keeps.forM (fun i => Keeps.bind (keeps_dealCard i) fun _ => keeps_dealCard i) _

theorem keeps_drawn {next : M Unit} (hnext : Keeps Kept next) (i : ℕ) (cur : ℤ) :
    Keeps Kept (if cur = -1 then pure ()
      else do
        take i cur
        let s ← read
        if getCardPoint (s.player i) = 21 then pure ()
        else if 21 < getCardPoint (s.player i) then pure ()
        else next) :=
  Keeps.ite Keeps.pure (Keeps.bind (keeps_take i cur) fun _ => Keeps.bind Keeps.read fun _ =>
    Keeps.ite Keeps.pure (Keeps.ite Keeps.pure hnext))

theorem keeps_playerLoop (i fuel : ℕ) : Keeps Kept (playerLoop i fuel) := by
  induction fuel with
  | zero => exact Keeps.stop
  | succ fuel ih =>
    exact Keeps.bind keeps_input fun _ =>
      Keeps.ite Keeps.pure (Keeps.bind keeps_getCard fun cur => keeps_drawn ih i cur)

theorem keeps_hitBelow (limit : ℤ) (i fuel : ℕ) : Keeps Kept (hitBelow limit i fuel) := by
  induction fuel with
  | zero => exact Keeps.stop
  | succ fuel ih =>
    exact Keeps.bind Keeps.read fun _ =>
      Keeps.ite (Keeps.bind keeps_getCard fun cur => keeps_drawn ih i cur) Keeps.pure

theorem keeps_computer (fuel i : ℕ) : Keeps Kept (computer fuel i) :=
  Keeps.bind (keeps_hitBelow 14 i fuel) fun _ => Keeps.bind Keeps.read fun _ =>
    Keeps.ite (Keeps.bind keeps_rand fun _ =>
      Keeps.ite (Keeps.bind keeps_getCard fun cur => Keeps.ite Keeps.pure (keeps_take i cur))
        Keeps.pure) Keeps.pure

theorem keeps_drawEveryone (fuel : ℕ) : Keeps Kept (drawEveryone fuel) :=
  Keeps.bind (keeps_playerLoop 1 fuel) fun _ => Keeps.bind Keeps.read fun _ =>
    Keeps.bind (Keeps.forM (keeps_computer fuel) _) fun _ => keeps_hitBelow 17 0 fuel

theorem keeps_kaikei : Keeps Kept kaikei :=
  Keeps.bind Keeps.read fun _ => Keeps.forM (fun i => keeps_setPlayer i _) _

theorem keeps_endRound : Keeps Kept endRound :=
  Keeps.bind Keeps.read fun _ => Keeps.forM (fun i => keeps_setPlayer i _) _

theorem keeps_startRound (fuel : ℕ) : Keeps Kept (startRound fuel) :=
  Keeps.bind (Keeps.assign fun _ h => ⟨h.deck, h.count, h.nonneg, h.card⟩) fun _ =>
    Keeps.bind keeps_punPai fun _ => Keeps.bind (keeps_drawEveryone fuel) fun _ =>
      Keeps.bind keeps_kaikei fun _ => keeps_endRound

theorem keeps_rounds (fuel n : ℕ) : Keeps Kept (rounds fuel n) := by
  induction n with
  | zero => exact Keeps.stop
  | succ n ih =>
    exact Keeps.bind Keeps.read fun _ =>
      Keeps.ite (Keeps.bind (keeps_startRound fuel) fun _ => ih) Keeps.pure

end Steps

section Runs
variable (N : ℕ) (rands : ℕ → ℕ) (inputs : ℕ → ℤ)

theorem kept_setUp : Kept (Game.initial N rands inputs).setUp := by
  refine ⟨fun c hc => ?_, rfl, show (0 : ℤ) ≤ 208 by decide, fun _ hd => absurd hd List.not_mem_nil⟩
  have hcard : 0 ≤ (c : ℤ) ∧ (c : ℤ) < 4 * 13 := by omega
  change (if 0 ≤ (c : ℤ) ∧ (c : ℤ) < 4 * 13 then (numberOfDeck : ℤ) else 0) = numberOfDeck
  rw [if_pos hcard]

/-- The moments of a run: every state in which an assignment leaves the globals. -/
def moments (fuel : ℕ) : List Game := (main fuel (Game.initial N rands inputs)).events

theorem kept_moments (fuel : ℕ) : ∀ s ∈ moments N rands inputs fuel, Kept s := by
  have hsetUp := kept_setUp N rands inputs
  have hmain : Ensures (fun _ => True) Kept (main fuel) (Game.initial N rands inputs)
      (fun _ => Kept) fun _ => Kept :=
    Ensures.bind (Ensures.assign hsetUp) fun _ s hs => keeps_rounds fuel fuel s hs
  exact (hmain fun _ _ => trivial).1

theorem getCard_dealt {s : Game} (h : s.nokoriCardCnt ≠ 0) :
    ∃ s' ∈ (getCard s).events, s'.dealt ≠ [] := by
  set card : ℤ := ((s.rands 0 % (numberOfDeck * 13) : ℕ) : ℤ)
  set s' : Game := { s with
    nokoriCardCnt := s.nokoriCardCnt - 1
    rands := fun k => s.rands (k + 1)
    dealt := (card, s.deck card) :: s.dealt }
  refine ⟨s', ?_, List.cons_ne_nil _ _⟩
  rw [getCard, read_bind_apply, if_neg h]
  refine mem_events_of_bind rfl (mem_events_bind ?_)
  rw [assign_apply]
  exact List.mem_singleton_self _

theorem punPai_dealt {s : Game} (h : s.nokoriCardCnt ≠ 0) :
    ∃ s' ∈ (punPai s).events, s'.dealt ≠ [] := by
  obtain ⟨s', hs', hne⟩ := getCard_dealt h
  refine ⟨s', ?_, hne⟩
  rw [punPai, read_bind_apply, List.range_succ_eq_map]
  refine mem_events_bind (mem_events_bind ?_)
  rw [dealCard, read_bind_apply, if_pos h]
  exact mem_events_bind hs'

theorem moments_dealt (hN : N ≤ 6) {fuel : ℕ} (hfuel : 0 < fuel) :
    ∃ s ∈ moments N rands inputs fuel, s.dealt ≠ [] := by
  obtain ⟨n, rfl⟩ : ∃ n, fuel = n + 1 := ⟨fuel - 1, by omega⟩
  have henough : ((Game.initial N rands inputs).setUp.N + 1 : ℤ) * 5 ≤
      (Game.initial N rands inputs).setUp.nokoriCardCnt := by
    change ((N : ℤ) + 1) * 5 ≤ 208
    omega
  set s := (Game.initial N rands inputs).setUp with hs
  obtain ⟨s', hs', hne⟩ := punPai_dealt (s := { s with round := s.round + 1 })
    (show (208 : ℤ) ≠ 0 by decide)
  refine ⟨s', ?_, hne⟩
  rw [moments, main]
  apply mem_events_assign_bind
  rw [rounds, read_bind_apply, ← hs, if_pos henough]
  refine mem_events_bind ?_
  rw [startRound]
  apply mem_events_assign_bind
  exact mem_events_bind hs'

/-- At each moment of each game for up to six players the deck and its counter agree with the
cards dealt if and only if none has been dealt yet, and every game deals one. -/
theorem conserved_iff (hN : N ≤ 6) (fuel : ℕ) :
    (∀ s ∈ moments N rands inputs fuel, Conserved s ↔ s.dealt = []) ∧
      (0 < fuel → ∃ s ∈ moments N rands inputs fuel, ¬ Conserved s) := by
  have hkept := kept_moments N rands inputs fuel
  refine ⟨fun s hs => (hkept s hs).conserved_iff_dealt_nil, fun hfuel => ?_⟩
  obtain ⟨s, hs, hne⟩ := moments_dealt N rands inputs hN hfuel
  exact ⟨s, hs, fun hc => hne ((hkept s hs).conserved_iff_dealt_nil.1 hc)⟩

end Runs

/-- A game of two players. -/
theorem conserved_iff_two :
    (∀ s ∈ moments 2 (fun k => k) (fun _ => 1) 3, Conserved s ↔ s.dealt = []) ∧
      (0 < 3 → ∃ s ∈ moments 2 (fun k => k) (fun _ => 1) 3, ¬ Conserved s) :=
  conserved_iff 2 (fun k => k) (fun _ => 1) (by decide) 3

/-- When every random number is 0, the ace of spades is dealt and stays in the deck. -/
theorem ace_not_conserved : ¬ ∀ s ∈ moments 1 (fun _ => 0) (fun _ => 0) 1, Conserved s := by
  intro h
  obtain ⟨s, hs, hne⟩ := moments_dealt 1 (fun _ => 0) (fun _ => 0) (by decide) (Nat.succ_pos 0)
  exact hne ((kept_moments _ _ _ _ s hs).conserved_iff_dealt_nil.1 (h s hs))

end Blackjack
