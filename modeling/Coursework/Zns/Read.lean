import Coursework.Zns.Ordinary

/-! `zns_read`: what it stores in the caller's buffer. -/
namespace Zns

/-- The counters of a read and the stores it has made, each with its index in `data`. -/
structure Cursor where
  lbaOffset : ℕ
  cpyCnt : ℕ
  data : ℕ
  stores : List (ℕ × Word)

/-- `data[0]=v; data++; cpy_cnt++; lba_offset++;`. -/
def Cursor.put (c : Cursor) (v : Word) : Cursor :=
  ⟨c.lbaOffset + 1, c.cpyCnt + 1, c.data + 1, c.stores ++ [(c.data, v)]⟩

/-- `FOR(i,NSECT) data[i]=tmp_data[i];` with the three counters advanced by a page. -/
def Cursor.putPage (c : Cursor) (tmp : ℕ → Word) : Cursor :=
  ⟨c.lbaOffset + 8, c.cpyCnt + 8, c.data + 8,
    c.stores ++ (List.range 8).map fun i => (c.data + i, tmp i)⟩

/-- The loop over the buffer of an open zone, for `n` positions from `i` on; the flag is its
`return`. -/
def readBuffer (buffer : ℕ → Word) (nsect : ℕ) : ℕ → ℕ → Cursor → Cursor × Bool
  | 0, _, c => (c, false)
  | n + 1, i, c =>
    if c.cpyCnt = nsect then (c, true) else readBuffer buffer nsect n (i + 1) (c.put (buffer i))

/-- The loop over the sectors that are not written, `n` times. -/
def readUnwritten : ℕ → Cursor → Cursor
  | 0, c => c
  | n + 1, c => readUnwritten n (c.put blank)

variable (g : Geometry)

/-- The `ZONE_OPEN` branch of `zns_read`; `none` is a loop that has not ended. -/
def readOpen (s : Dev) (zone startLba nsect : ℕ) :
    ℕ → (ℕ → Word) → Cursor → Option (List (ℕ × Word))
  | 0, _, c => if c.lbaOffset < nsect then none else some c.stores
  | fuel + 1, tmp, c =>
    if c.lbaOffset < nsect then
      let lba := startLba + c.lbaOffset
      if lba < s.wp zone then
        if lba + 8 - 1 < s.wp zone then
          let tmp := readPage g s (g.zoneToFcg zone) (s.z2Fbg zone) lba tmp
          readOpen s zone startLba nsect fuel tmp (c.putPage tmp)
        else
          match readBuffer (s.buffer zone) nsect (s.wp zone % 8 - lba % 8) (lba % 8) c with
          | (c, true) => some c.stores
          | (c, false) => readOpen s zone startLba nsect fuel tmp c
      else readOpen s zone startLba nsect fuel tmp (readUnwritten (nsect - c.cpyCnt) c)
    else some c.stores

/-- The inner loop of the `ZONE_FULL` branch. -/
def copyPage (tmp : ℕ → Word) (nsect : ℕ) : ℕ → ℕ → Cursor → Cursor × Bool
  | 0, _, c => (c, false)
  | n + 1, i, c =>
    if c.cpyCnt = nsect then (c, true)
    else copyPage tmp nsect n (i + 1)
      { c with cpyCnt := c.cpyCnt + 1, stores := c.stores ++ [(c.data + i, tmp i)] }

/-- The `ZONE_FULL` branch of `zns_read`. -/
def readFull (s : Dev) (zone startLba nsect : ℕ) :
    ℕ → (ℕ → Word) → Cursor → Option (List (ℕ × Word))
  | 0, _, c => if c.lbaOffset < nsect then none else some c.stores
  | fuel + 1, tmp, c =>
    if c.lbaOffset < nsect then
      let tmp := readPage g s (g.zoneToFcg zone) (s.z2Fbg zone) (startLba + c.lbaOffset) tmp
      match copyPage tmp nsect 8 0 c with
      | (c, true) => some c.stores
      | (c, false) => readFull s zone startLba nsect fuel tmp
          { c with lbaOffset := c.lbaOffset + 8, data := c.data + 8 }
    else some c.stores

/-- The `ZONE_TLOPEN` branch of `zns_read`, for `n` sectors from `lba` on. -/
def readTlOpen (s : Dev) (zone : ℕ) : ℕ → ℕ → (ℕ → Word) → ℕ → List (ℕ × Word)
  | 0, _, _, _ => []
  | n + 1, lba, tmp, data =>
    if lba < s.wp zone then
      if lba / 8 * 8 + 8 - 1 < s.wp zone then
        let tmp := readPage g s (g.zoneToFcg zone) (s.z2Fbg zone) lba tmp
        (data, tmp (lba % 8)) :: readTlOpen s zone n (lba + 1) tmp (data + 1)
      else (data, s.buffer zone (lba % 8)) :: readTlOpen s zone n (lba + 1) tmp (data + 1)
    else if s.validMap zone (lba % g.zoneSize) = 1 then
      let tmp := readPage g s (g.zoneToFcg zone) (s.z2LogFbg zone) lba tmp
      (data, tmp (lba % 8)) :: readTlOpen s zone n (lba + 1) tmp (data + 1)
    else (data, blank) :: readTlOpen s zone n (lba + 1) tmp data

/-- `zns_read`; `tmp` is what `tmp_data` holds at first, and `none` says that a loop has not ended
within the fuel. -/
def znsRead (fuel : ℕ) (s : Dev) (tmp : ℕ → Word) (startLba nsect : ℕ) :
    Option (List (ℕ × Word)) :=
  let zone := g.lbaToZone startLba
  match s.state zone with
  | .empty => some ((List.range nsect).map fun idx => (idx, blank))
  | .opened => readOpen g s zone startLba nsect fuel tmp ⟨0, 0, 0, []⟩
  | .full => readFull g s zone startLba nsect fuel tmp ⟨0, 0, 0, []⟩
  | .tlOpen => some (readTlOpen g s zone nsect startLba tmp 0)

variable {g} {s : Dev} {zone startLba nsect m : ℕ} {c : Cursor} {tmp : ℕ → Word}
  {P : ℕ → Word → Prop}

/-- The first `m` elements of the buffer have been stored once each, in step with the counters. -/
structure Cursor.At (c : Cursor) (m : ℕ) (P : ℕ → Word → Prop) : Prop where
  lbaOffset : c.lbaOffset = m
  cpyCnt : c.cpyCnt = m
  data : c.data = m
  index : c.stores.map Prod.fst = List.range m
  value : ∀ p ∈ c.stores, P p.1 p.2

namespace Cursor.At

theorem start (P : ℕ → Word → Prop) : (⟨0, 0, 0, []⟩ : Cursor).At 0 P :=
  ⟨rfl, rfl, rfl, rfl, fun _ hp => absurd hp List.not_mem_nil⟩

theorem put (h : c.At m P) {v : Word} (hv : P m v) : (c.put v).At (m + 1) P := by
  refine ⟨congrArg (· + 1) h.lbaOffset, congrArg (· + 1) h.cpyCnt, congrArg (· + 1) h.data, ?_,
    fun p hp => ?_⟩
  · rw [Cursor.put, List.map_append, h.index, h.data, List.range_succ]
    rfl
  · rcases List.mem_append.1 hp with hp | hp
    · exact h.value p hp
    · rw [List.mem_singleton.1 hp, h.data]
      exact hv

theorem putPage (h : c.At m P) {tmp : ℕ → Word} (hv : ∀ i < 8, P (m + i) (tmp i)) :
    (c.putPage tmp).At (m + 8) P := by
  refine ⟨congrArg (· + 8) h.lbaOffset, congrArg (· + 8) h.cpyCnt, congrArg (· + 8) h.data, ?_,
    fun p hp => ?_⟩
  · rw [Cursor.putPage, List.map_append, h.index, h.data, List.map_map, List.range_add]
    rfl
  · rcases List.mem_append.1 hp with hp | hp
    · exact h.value p hp
    · obtain ⟨i, hi, rfl⟩ := List.mem_map.1 hp
      rw [h.data]
      exact hv i (List.mem_range.1 hi)

end Cursor.At

theorem readBuffer_at {buffer : ℕ → Word} {n i : ℕ} (h : c.At m P) (hm : m ≤ nsect)
    (hv : ∀ k < n, m + k < nsect → P (m + k) (buffer (i + k))) :
    ∃ c', (readBuffer buffer nsect n i c = (c', true) ∧ c'.At nsect P ∧ nsect < m + n) ∨
      (readBuffer buffer nsect n i c = (c', false) ∧ c'.At (m + n) P ∧ m + n ≤ nsect) := by
  induction n generalizing m i c with
  | zero => exact ⟨c, .inr ⟨rfl, h, hm⟩⟩
  | succ n ih =>
    rw [readBuffer, h.cpyCnt]
    by_cases he : m = nsect
    · rw [if_pos he]
      exact ⟨c, .inl ⟨rfl, he ▸ h, by omega⟩⟩
    · rw [if_neg he]
      have hnext := @ih (m + 1) (c.put (buffer i)) (i + 1) (h.put (hv 0 (by omega) (by omega)))
        (by omega) fun k hk hlt => by
          have hval := hv (k + 1) (by omega) (by omega)
          rwa [← Nat.add_assoc, Nat.add_right_comm, ← Nat.add_assoc, Nat.add_right_comm i] at hval
      rwa [Nat.add_assoc, Nat.add_comm 1] at hnext

theorem readUnwritten_at {n : ℕ} (h : c.At m P) (hv : ∀ k < n, P (m + k) blank) :
    (readUnwritten n c).At (m + n) P := by
  induction n generalizing m c with
  | zero => exact h
  | succ n ih =>
    have hnext := ih (h.put (hv 0 (by omega))) fun k hk => by
      have hval := hv (k + 1) (by omega)
      rwa [← Nat.add_assoc, Nat.add_right_comm] at hval
    rwa [Nat.add_assoc, Nat.add_comm 1] at hnext

/-! The branch for open zones. -/

theorem readOpen_done (h : c.At m P) (hm : nsect ≤ m) (fuel : ℕ) (tmp : ℕ → Word) :
    readOpen g s zone startLba nsect fuel tmp c = some c.stores := by
  have hle : ¬ c.lbaOffset < nsect := by
    rw [h.lbaOffset]
    omega
  cases fuel with
  | zero => exact if_neg hle
  | succ fuel => exact if_neg hle

/-- More fuel does not change a result. -/
theorem readOpen_add {fuel : ℕ} {out : List (ℕ × Word)}
    (h : readOpen g s zone startLba nsect fuel tmp c = some out) (k : ℕ) :
    readOpen g s zone startLba nsect (fuel + k) tmp c = some out := by
  induction fuel generalizing tmp c with
  | zero =>
    rw [readOpen] at h
    split at h
    · cases h
    · next hle =>
      cases k with
      | zero => rwa [readOpen, if_neg hle]
      | succ k => rwa [← Nat.add_assoc, readOpen, if_neg hle]
  | succ fuel ih =>
    rw [Nat.add_right_comm]
    rw [readOpen] at h ⊢
    dsimp only at h ⊢
    split at h
    · next hlt =>
      rw [if_pos hlt]
      split at h
      · next hwp =>
        rw [if_pos hwp]
        split at h
        · next hpage =>
          rw [if_pos hpage]
          exact ih h
        · next hpage =>
          rw [if_neg hpage]
          split at h
          · next he => exact h
          · next he => exact ih h
      · next hwp =>
        rw [if_neg hwp]
        exact ih h
    · next hlt =>
      rw [if_neg hlt]
      exact h

theorem readOpen_pages (k : ℕ)
    (hlt : ∀ j < k, 8 * j < nsect ∧ startLba + 8 * j + 8 ≤ s.wp zone)
    (hv : ∀ j < k, ∀ tmp, ∀ i < 8, P (8 * j + i)
      (readPage g s (g.zoneToFcg zone) (s.z2Fbg zone) (startLba + 8 * j) tmp i))
    (tmp : ℕ → Word) :
    ∃ (c' : Cursor) (tmp' : ℕ → Word), c'.At (8 * k) P ∧ ∀ fuel,
      readOpen g s zone startLba nsect (fuel + k) tmp ⟨0, 0, 0, []⟩ =
        readOpen g s zone startLba nsect fuel tmp' c' := by
  induction k with
  | zero => exact ⟨_, tmp, Cursor.At.start P, fun _ => rfl⟩
  | succ k ih =>
    obtain ⟨c, tmp', hc, hrun⟩ := ih (fun j hj => hlt j (by omega)) fun j hj => hv j (by omega)
    obtain ⟨hsect, hwp⟩ := hlt k (by omega)
    refine ⟨_, readPage g s (g.zoneToFcg zone) (s.z2Fbg zone) (startLba + 8 * k) tmp',
      hc.putPage (hv k (by omega) tmp'), fun fuel => ?_⟩
    rw [Nat.add_comm k 1, ← Nat.add_assoc, hrun, readOpen, hc.lbaOffset]
    dsimp only
    rw [if_pos hsect, if_pos (by omega), if_pos (by omega)]

theorem readOpen_unwritten (h : c.At m P) (hm : m < nsect) (hwp : s.wp zone ≤ startLba + m)
    (hv : ∀ i, m ≤ i → P i blank) (fuel : ℕ) (tmp : ℕ → Word) :
    ∃ c' : Cursor, c'.At nsect P ∧
      readOpen g s zone startLba nsect (fuel + 1) tmp c = some c'.stores := by
  have hc := @readUnwritten_at m c P (nsect - m) h fun k _ => hv _ (by omega)
  rw [Nat.add_sub_cancel' hm.le] at hc
  refine ⟨_, hc, ?_⟩
  rw [readOpen, h.lbaOffset, h.cpyCnt]
  dsimp only
  rw [if_pos hm, if_neg (by omega)]
  exact readOpen_done hc le_rfl fuel tmp

/-- The sectors of the page that the write pointer is in, and what follows them. -/
theorem readOpen_buffer (h : c.At m P) (hm : m < nsect) (hwp : startLba + m < s.wp zone)
    (hpage : s.wp zone < startLba + m + 8) (hmod : (startLba + m) % 8 < s.wp zone % 8)
    (hbuf : ∀ i, m ≤ i → startLba + i < s.wp zone → P i (s.buffer zone ((startLba + i) % 8)))
    (hblank : ∀ i, s.wp zone ≤ startLba + i → P i blank) (fuel : ℕ) (tmp : ℕ → Word) :
    ∃ c' : Cursor, c'.At nsect P ∧
      readOpen g s zone startLba nsect (fuel + 2) tmp c = some c'.stores := by
  have hcount : s.wp zone % 8 - (startLba + m) % 8 = s.wp zone - (startLba + m) := by omega
  have hloop := @readBuffer_at nsect m c P (s.buffer zone)
    (s.wp zone % 8 - (startLba + m) % 8) ((startLba + m) % 8) h hm.le fun k hk hlt => by
      have hval := hbuf (m + k) (by omega) (by omega)
      rwa [show (startLba + (m + k)) % 8 = (startLba + m) % 8 + k by omega] at hval
  rw [readOpen, h.lbaOffset]
  dsimp only
  rw [if_pos hm, if_pos hwp, if_neg (by omega)]
  obtain ⟨c', ⟨hrun, hc', -⟩ | ⟨hrun, hc', hle⟩⟩ := hloop
  · rw [hrun]
    exact ⟨c', hc', rfl⟩
  · rw [hrun]
    dsimp only
    by_cases he : nsect ≤ m + (s.wp zone % 8 - (startLba + m) % 8)
    · have hend : m + (s.wp zone % 8 - (startLba + m) % 8) = nsect := by omega
      exact ⟨c', hend ▸ hc', readOpen_done hc' he _ tmp⟩
    · exact readOpen_unwritten hc' (by omega) (by omega) (fun i hi => hblank i (by omega)) fuel tmp

theorem readOpen_stuck (h : c.At m P) (hm : m < nsect) (hwp : startLba + m < s.wp zone)
    (hpage : s.wp zone < startLba + m + 8) (hmod : s.wp zone % 8 < (startLba + m) % 8)
    (fuel : ℕ) (tmp : ℕ → Word) :
    readOpen g s zone startLba nsect fuel tmp c = none := by
  induction fuel with
  | zero => exact if_pos (h.lbaOffset.symm ▸ hm)
  | succ fuel ih =>
    rw [readOpen, h.lbaOffset]
    dsimp only
    rw [if_pos hm, if_pos hwp, if_neg (by omega), Nat.sub_eq_zero_of_le hmod.le]
    exact ih

/-- The ranges that `zns_read` handles in an open zone: from the write pointer on, or such that no
page is stored beyond the request and the last page is met at its start side. -/
def OpenRange (wp startLba nsect : ℕ) : Prop :=
  wp ≤ startLba ∨ (nsect % 8 = 0 ∨ wp < startLba + 8 * (nsect / 8) + 8) ∧
    (startLba % 8 ≤ wp % 8 ∨ nsect ≤ 8 * ((wp - startLba) / 8))

/-- In such a range every element is stored once, with the page, the buffer or `blank`. -/
theorem readOpen_fills (h : OpenRange (s.wp zone) startLba nsect)
    (hread : ∀ j, 8 * j < nsect → startLba + 8 * j + 8 ≤ s.wp zone → ∀ tmp, ∀ i < 8,
      P (8 * j + i) (readPage g s (g.zoneToFcg zone) (s.z2Fbg zone) (startLba + 8 * j) tmp i))
    (hbuf : ∀ i, 8 * ((s.wp zone - startLba) / 8) ≤ i → startLba + i < s.wp zone →
      P i (s.buffer zone ((startLba + i) % 8)))
    (hblank : ∀ i, s.wp zone ≤ startLba + i → P i blank) (tmp : ℕ → Word) :
    ∃ (fuel : ℕ) (c : Cursor),
      readOpen g s zone startLba nsect fuel tmp ⟨0, 0, 0, []⟩ = some c.stores ∧
        c.At nsect P := by
  unfold OpenRange at h
  by_cases hfit : nsect ≤ 8 * ((s.wp zone - startLba) / 8)
  · obtain ⟨c, tmp', hc, hrun⟩ := @readOpen_pages g s zone startLba nsect P (nsect / 8)
      (fun j hj => by omega) (fun j hj => hread j (by omega) (by omega)) tmp
    have hend : 8 * (nsect / 8) = nsect := by omega
    rw [hend] at hc
    exact ⟨_, c, (hrun 0).trans (readOpen_done hc le_rfl 0 tmp'), hc⟩
  · obtain ⟨c, tmp', hc, hrun⟩ := @readOpen_pages g s zone startLba nsect P
      ((s.wp zone - startLba) / 8)
      (fun j hj => by omega) (fun j hj => hread j (by omega) (by omega)) tmp
    by_cases hwp : s.wp zone ≤ startLba + 8 * ((s.wp zone - startLba) / 8)
    · obtain ⟨c', hc', hout⟩ := @readOpen_unwritten g s zone startLba nsect _ c P hc
        (by omega) hwp (fun i hi => hblank i (by omega)) 0 tmp'
      exact ⟨_, c', (hrun 1).trans hout, hc'⟩
    · obtain ⟨c', hc', hout⟩ := @readOpen_buffer g s zone startLba nsect _ c P hc
        (by omega) (by omega) (by omega) (by omega) hbuf hblank 0 tmp'
      exact ⟨_, c', (hrun 2).trans hout, hc'⟩

/-- In any other range the loop does not end or stores beyond the request. -/
theorem readOpen_fails (h : ¬ OpenRange (s.wp zone) startLba nsect) {fuel : ℕ}
    {out : List (ℕ × Word)}
    (hout : readOpen g s zone startLba nsect fuel tmp ⟨0, 0, 0, []⟩ = some out) :
    nsect < out.length := by
  unfold OpenRange at h
  simp only [not_or, not_and_or, not_le, not_lt] at h
  obtain ⟨hlt, hbad⟩ := h
  by_cases hover : nsect % 8 ≠ 0 ∧ startLba + 8 * (nsect / 8) + 8 ≤ s.wp zone
  · obtain ⟨c, tmp', hc, hrun⟩ := @readOpen_pages g s zone startLba nsect
      (fun _ _ => True) (nsect / 8 + 1)
      (fun j hj => by omega) (fun _ _ _ _ _ => trivial) tmp
    have hres := readOpen_add hout (nsect / 8 + 1)
    rw [hrun, readOpen_done hc (by omega)] at hres
    have hlen := congrArg List.length hc.index
    rw [List.length_map, List.length_range] at hlen
    rw [← Option.some.inj hres, hlen]
    omega
  · obtain ⟨c, tmp', hc, hrun⟩ := @readOpen_pages g s zone startLba nsect
      (fun _ _ => True) ((s.wp zone - startLba) / 8)
      (fun j hj => by omega) (fun _ _ _ _ _ => trivial) tmp
    have hres := readOpen_add hout ((s.wp zone - startLba) / 8)
    rw [hrun, readOpen_stuck hc (by omega) (by omega) (by omega) (by omega)] at hres
    cases hres

/-! The branch for full zones. -/

/-- The inner loop has stored `i` sectors of a page, and stops at the end of the request. -/
theorem copyPage_at {n i : ℕ} (hoff : c.lbaOffset = m) (hdata : c.data = m)
    (hcnt : c.cpyCnt = m + i) (hindex : c.stores.map Prod.fst = List.range (m + i))
    (hvalue : ∀ p ∈ c.stores, P p.1 p.2) (hm : m + i ≤ nsect)
    (hv : ∀ k, i ≤ k → k < i + n → m + k < nsect → P (m + k) (tmp k)) :
    ∃ c', (copyPage tmp nsect n i c = (c', true) ∧ nsect < m + (i + n) ∧
        c'.stores.map Prod.fst = List.range nsect ∧ ∀ p ∈ c'.stores, P p.1 p.2) ∨
      (copyPage tmp nsect n i c = (c', false) ∧ m + (i + n) ≤ nsect ∧
        c'.lbaOffset = m ∧ c'.data = m ∧ c'.cpyCnt = m + (i + n) ∧
        c'.stores.map Prod.fst = List.range (m + (i + n)) ∧ ∀ p ∈ c'.stores, P p.1 p.2) := by
  induction n generalizing i c with
  | zero => exact ⟨c, .inr ⟨rfl, hm, hoff, hdata, hcnt, hindex, hvalue⟩⟩
  | succ n ih =>
    rw [copyPage, hcnt]
    by_cases he : m + i = nsect
    · rw [if_pos he]
      exact ⟨c, .inl ⟨rfl, by omega, he ▸ hindex, hvalue⟩⟩
    · rw [if_neg he]
      have hnext := @ih { c with
          cpyCnt := m + i + 1
          stores := c.stores ++ [(c.data + i, tmp i)] } (i + 1) hoff hdata rfl
        (by
          rw [List.map_append, hindex, hdata, ← Nat.add_assoc, List.range_succ]
          rfl)
        (fun p hp => by
          rcases List.mem_append.1 hp with hp | hp
          · exact hvalue p hp
          · rw [List.mem_singleton.1 hp, hdata]
            exact hv i le_rfl (by omega) (by omega))
        (by omega) (fun k h1 h2 => hv k (by omega) (by omega))
      rwa [show i + 1 + n = i + (n + 1) by omega] at hnext

/-- A full zone is read page by page up to the end of the request. -/
theorem readFull_fills {fuel k : ℕ} (h : c.At (8 * k) P) (hfuel : nsect ≤ 8 * (k + fuel))
    (hk : 8 * k ≤ nsect)
    (hv : ∀ k tmp, ∀ i < 8, 8 * k + i < nsect → P (8 * k + i)
      (readPage g s (g.zoneToFcg zone) (s.z2Fbg zone) (startLba + 8 * k) tmp i))
    (tmp : ℕ → Word) :
    ∃ out, readFull g s zone startLba nsect fuel tmp c = some out ∧
      out.map Prod.fst = List.range nsect ∧ ∀ p ∈ out, P p.1 p.2 := by
  induction fuel generalizing k c tmp with
  | zero =>
    have hend : 8 * k = nsect := by omega
    exact ⟨c.stores, if_neg (by rw [h.lbaOffset]; omega), hend ▸ h.index, h.value⟩
  | succ fuel ih =>
    rw [readFull, h.lbaOffset]
    by_cases hlt : 8 * k < nsect
    · rw [if_pos hlt]
      have hpage := @copyPage_at nsect (8 * k) c
        (readPage g s (g.zoneToFcg zone) (s.z2Fbg zone) (startLba + 8 * k) tmp) P 8 0 h.lbaOffset
        h.data h.cpyCnt h.index h.value hk fun i _ hi hlt => hv k tmp i (by omega) (by omega)
      obtain ⟨c', ⟨hrun, -, hindex, hvalue⟩ |
        ⟨hrun, hle, hoff, hdata, hcnt, hindex, hvalue⟩⟩ := hpage
      · dsimp only
        rw [hrun]
        exact ⟨c'.stores, rfl, hindex, hvalue⟩
      · dsimp only
        rw [hrun]
        have hnext : Cursor.At { c' with lbaOffset := c'.lbaOffset + 8, data := c'.data + 8 }
            (8 * (k + 1)) P :=
          ⟨congrArg (· + 8) hoff, hcnt, congrArg (· + 8) hdata, hindex, hvalue⟩
        exact ih hnext (by omega) (by omega) _
    · rw [if_neg hlt]
      have hend : 8 * k = nsect := by omega
      exact ⟨c.stores, rfl, hend ▸ h.index, h.value⟩

/-! The branch for TL-open zones. -/

/-- The sectors of a TL-open zone after which `zns_read` advances its output pointer. -/
def Advances (g : Geometry) (s : Dev) (zone lba : ℕ) : Prop :=
  lba < s.wp zone ∨ s.validMap zone (lba % g.zoneSize) = 1

instance (s : Dev) (zone lba : ℕ) : Decidable (Advances g s zone lba) :=
  inferInstanceAs (Decidable (_ ∨ _))

/-- Each sector makes one store, and the pointer advances after some of them. -/
theorem readTlOpen_succ (n lba : ℕ) (tmp : ℕ → Word) (data : ℕ) :
    ∃ v tmp', readTlOpen g s zone (n + 1) lba tmp data = (data, v) ::
      readTlOpen g s zone n (lba + 1) tmp' (if Advances g s zone lba then data + 1 else data) := by
  rw [readTlOpen]
  by_cases hwp : lba < s.wp zone
  · have hadv : Advances g s zone lba := Or.inl hwp
    rw [if_pos hwp, if_pos hadv]
    by_cases hpage : lba / 8 * 8 + 8 - 1 < s.wp zone
    · rw [if_pos hpage]
      exact ⟨_, _, rfl⟩
    · rw [if_neg hpage]
      exact ⟨_, _, rfl⟩
  · rw [if_neg hwp]
    by_cases hv : s.validMap zone (lba % g.zoneSize) = 1
    · have hadv : Advances g s zone lba := Or.inr hv
      rw [if_pos hv, if_pos hadv]
      exact ⟨_, _, rfl⟩
    · have hadv : ¬ Advances g s zone lba := not_or.2 ⟨hwp, hv⟩
      rw [if_neg hv, if_neg hadv]
      exact ⟨_, _, rfl⟩

theorem readTlOpen_index {n lba data : ℕ} {tmp : ℕ → Word}
    (h : ∀ j, j + 1 < n → Advances g s zone (lba + j)) :
    (readTlOpen g s zone n lba tmp data).map Prod.fst = List.range' data n := by
  induction n generalizing lba data tmp with
  | zero => rfl
  | succ n ih =>
    obtain ⟨v, tmp', he⟩ := @readTlOpen_succ g s zone n lba tmp data
    rw [he, List.map_cons, List.range'_succ]
    congr 1
    cases n with
    | zero => rfl
    | succ n =>
      have hfirst : Advances g s zone lba := h 0 (by omega)
      rw [if_pos hfirst]
      refine ih fun j hj => ?_
      have hadv := h (j + 1) (by omega)
      rwa [← Nat.add_assoc, Nat.add_right_comm] at hadv

/-- A sector after which the pointer stays is stored over by the next one. -/
theorem readTlOpen_nodup {n lba data : ℕ} {tmp : ℕ → Word}
    (h : ((readTlOpen g s zone n lba tmp data).map Prod.fst).Nodup) :
    ∀ j, j + 1 < n → Advances g s zone (lba + j) := by
  induction n generalizing lba data tmp with
  | zero => exact fun j hj => absurd hj (Nat.not_lt_zero _)
  | succ n ih =>
    obtain ⟨v, tmp', he⟩ := @readTlOpen_succ g s zone n lba tmp data
    rw [he, List.map_cons, List.nodup_cons] at h
    intro j hj
    cases j with
    | zero =>
      by_contra hadv
      obtain ⟨n, rfl⟩ := Nat.exists_eq_add_of_le' (by omega : 1 ≤ n)
      obtain ⟨w, tmp'', he'⟩ := @readTlOpen_succ g s zone n (lba + 1) tmp' data
      refine h.1 ?_
      rw [Nat.add_zero] at hadv
      rw [if_neg hadv, he', List.map_cons]
      exact List.mem_cons_self
    | succ j =>
      have hadv := ih h.2 j (by omega)
      rwa [Nat.add_assoc, Nat.add_comm 1] at hadv

/-- The ranges in which `zns_read` fills the buffer. -/
def FillsBuffer (g : Geometry) (s : Dev) (startLba nsect : ℕ) : Prop :=
  let zone := g.lbaToZone startLba
  match s.state zone with
  | .empty | .full => True
  | .opened => OpenRange (s.wp zone) startLba nsect
  | .tlOpen => ∀ j, j + 1 < nsect → Advances g s zone (startLba + j)

/-- `zns_read` ends with each of the `nsect` elements stored exactly once and nothing else, exactly
in these ranges. -/
theorem znsRead_fills_iff (s : Dev) (tmp : ℕ → Word) (startLba nsect : ℕ) :
    (∃ fuel out, znsRead g fuel s tmp startLba nsect = some out ∧
      (out.map Prod.fst).Perm (List.range nsect)) ↔ FillsBuffer g s startLba nsect := by
  unfold znsRead FillsBuffer
  dsimp only
  generalize g.lbaToZone startLba = zone
  cases s.state zone with
  | empty =>
    refine iff_of_true ⟨0, _, rfl, ?_⟩ trivial
    rw [List.map_map]
    exact (List.map_id _).symm ▸ List.Perm.refl _
  | full =>
    refine iff_of_true ?_ trivial
    obtain ⟨out, hout, hindex, -⟩ := @readFull_fills g s zone startLba nsect ⟨0, 0, 0, []⟩
      (fun _ _ => True) nsect 0 (Cursor.At.start _) (by omega) (by omega)
      (fun _ _ _ _ _ => trivial) tmp
    exact ⟨nsect, out, hout, hindex ▸ List.Perm.refl _⟩
  | opened =>
    dsimp only
    constructor
    · rintro ⟨fuel, out, hout, hperm⟩
      by_contra hno
      have hlt := readOpen_fails hno hout
      have hlen := hperm.length_eq
      rw [List.length_map, List.length_range] at hlen
      omega
    · intro h
      obtain ⟨fuel, c, hout, hc⟩ := @readOpen_fills g s zone startLba nsect (fun _ _ => True) h
        (fun _ _ _ _ _ _ => trivial) (fun _ _ _ => trivial) (fun _ _ => trivial) tmp
      exact ⟨fuel, c.stores, hout, hc.index ▸ List.Perm.refl _⟩
  | tlOpen =>
    dsimp only
    constructor
    · rintro ⟨-, out, hout, hperm⟩
      rw [← Option.some.inj hout] at hperm
      exact readTlOpen_nodup (hperm.nodup_iff.2 List.nodup_range)
    · intro h
      refine ⟨0, _, rfl, ?_⟩
      rw [readTlOpen_index h, List.range_eq_range']

/-- One bank of two blocks of two pages, and one zone. -/
def twoPages : Geometry where
  nbank := 1
  nblk := 2
  npage := 2
  deg := 1
  maxOpen := 1
  nbank_pos := Nat.one_pos
  nblk_pos := Nat.two_pos
  npage_pos := Nat.two_pos
  deg_pos := Nat.one_pos

/-- A request for one sector of a page that is written stores the whole page. -/
theorem znsRead_overrun : ∃ s, znsInit twoPages (fun _ => ⟨fun _ => 0, 0⟩) (fun _ _ => 0) = some s ∧
    Admitted twoPages (.write (fun _ => 0) 0 (List.replicate 8 7)) ∧ InZone twoPages 0 1 ∧
    let s' := step twoPages s (.write (fun _ => 0) 0 (List.replicate 8 7))
    (∃ out, znsRead twoPages 1 s' (fun _ => 0) 0 1 = some out ∧ out.map Prod.fst = List.range 8) ∧
    ¬ ∃ fuel out, znsRead twoPages fuel s' (fun _ => 0) 0 1 = some out ∧
      (out.map Prod.fst).Perm (List.range 1) := by
  refine ⟨_, rfl, ⟨by decide, by decide⟩, ⟨by decide, by decide⟩, ⟨_, rfl, by decide +kernel⟩, ?_⟩
  rintro ⟨fuel, out, hout, hperm⟩
  have hlt := readOpen_fails (by
    intro h
    revert h
    unfold OpenRange
    decide +kernel) hout
  have hlen := hperm.length_eq
  rw [List.length_map, List.length_range] at hlen
  omega

end Zns
