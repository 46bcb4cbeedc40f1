import Coursework.BigFile.Overrun

/-! `baddr`: the disk block of a byte of an open file, looked up with a copy of `bmap` that
allocates nothing. -/
namespace BigFile
open BlockTree

/-- `-1` as an unsigned number. -/
def noBlock : ℕ := 4294967295

/-- `bmap2`. `none` is a panic. -/
def bmap2 (s : Fs) (i bn : ℕ) : Option (Fs × ℕ) :=
  if bn < ndirect then
    let addr := (s.inode i).addrs bn
    if addr = 0 then some (s, noBlock) else some (s, addr)
  else
    let bn := bn - ndirect
    if bn < nindirect then
      let addr := (s.inode i).addrs ndirect
      if addr = 0 then some (s, noBlock)
      else
        let addr := getWord (s.disk addr) bn
        if addr = 0 then some (s, noBlock) else some (s, addr)
    else
      let bn := bn - nindirect
      if bn < dindirect then
        let addr := (s.inode i).addrs (ndirect + 1)
        if addr = 0 then some (s, noBlock)
        else
          let addr := getWord (s.disk addr) (bn / 128)
          if addr = 0 then some (s, noBlock)
          else
            let addr := getWord (s.disk addr) (bn % 128)
            if addr = 0 then some (s, noBlock) else some (s, addr)
      else none

/-- `baddr`; `ofile` are the open files of the process. -/
def baddr (s : Fs) (ofile : ℕ → Option File) (fd offset : ℕ) : Option (Fs × ℕ) := do
  let f ← ofile fd
  let blockNumber := if offset % 512 ≠ 0 then offset / 512 + 1 else offset / 512
  bmap2 s f.ip blockNumber

section Lookup
variable {s : Fs} {i bn : ℕ}

/-- The walk of `bmap2` reads the block tree. -/
theorem bmap2_eq (s : Fs) (i : ℕ) (hbn : bn < 16523) :
    bmap2 s i bn =
      some (s, if s.ptr (i, .data bn) = 0 then noBlock else s.ptr (i, .data bn)) := by
  have c1 : ndirect = 11 := rfl
  have c2 : nindirect = 128 := rfl
  have c3 : dindirect = 16384 := rfl
  generalize hp : s.ptr (i, .data bn) = p
  simp only [Fs.ptr] at hp
  unfold bmap2
  simp only [c1, c2, c3]
  by_cases h1 : bn < 11
  · rw [if_pos h1] at hp ⊢
    subst hp
    split_ifs <;> rfl
  · rw [if_neg h1] at hp ⊢
    by_cases h2 : bn < 139
    · rw [if_pos h2] at hp
      rw [if_pos (by omega)]
      by_cases h0 : (s.inode i).addrs 11 = 0
      · rw [Fs.entry, if_pos h0] at hp
        rw [if_pos h0, ← hp, if_pos rfl]
      · rw [Fs.entry, if_neg h0] at hp
        subst hp
        rw [if_neg h0]
        split_ifs <;> rfl
    · have e : bn - 11 - 128 = bn - 139 := by omega
      rw [if_neg h2, if_pos hbn] at hp
      rw [if_neg (by omega), if_pos (by omega), e]
      generalize hblk : s.entry ((s.inode i).addrs 12) ((bn - 139) / 128) = blk at hp
      by_cases h0 : (s.inode i).addrs 12 = 0
      · rw [Fs.entry, if_pos h0] at hblk
        rw [← hblk, Fs.entry, if_pos rfl] at hp
        rw [if_pos h0, ← hp, if_pos rfl]
      · rw [Fs.entry, if_neg h0] at hblk
        subst hblk
        rw [if_neg h0]
        by_cases h1 : getWord (s.disk ((s.inode i).addrs 12)) ((bn - 139) / 128) = 0
        · rw [Fs.entry, if_pos h1] at hp
          rw [if_pos h1, ← hp, if_pos rfl]
        · rw [Fs.entry, if_neg h1] at hp
          subst hp
          rw [if_neg h1]
          split_ifs <;> rfl

theorem bmap2_out_of_range (s : Fs) (i : ℕ) (h : 16523 ≤ bn) : bmap2 s i bn = none := by
  have c1 : ndirect = 11 := rfl
  have c2 : nindirect = 128 := rfl
  have c3 : dindirect = 16384 := rfl
  unfold bmap2
  rw [c1, c2, c3, if_neg (by omega)]
  dsimp only
  rw [if_neg (by omega), if_neg (by omega)]

/-- Block `bn` of inode `i` has no disk block. -/
def Unmapped (s : Fs) (i bn : ℕ) : Prop := ∀ b, ¬ Maps s i bn b

theorem unmapped_iff (h : WellFormed s) : Unmapped s i bn ↔ s.ptr (i, .data bn) = 0 := by
  constructor
  · intro hno
    by_contra hne
    exact hno _ ((maps_iff h).2 ⟨rfl, hne⟩)
  · rintro h0 b hm
    obtain ⟨rfl, hne⟩ := (maps_iff h).1 hm
    exact hne h0

theorem bmap2_agrees (h : WellFormed s) (hbn : bn < 16523) :
    (∀ b, Maps s i bn b → bmap2 s i bn = some (s, b)) ∧
      (Unmapped s i bn → bmap2 s i bn = some (s, noBlock)) := by
  rw [bmap2_eq s i hbn, unmapped_iff h]
  constructor
  · intro b hm
    obtain ⟨rfl, hne⟩ := (maps_iff h).1 hm
    rw [if_neg hne]
  · intro h0
    rw [if_pos h0]

end Lookup

/-- `baddr` returns the block from which `readi` takes the byte at `offset`, -1 if there is none,
and changes nothing. -/
structure Locates (s : Fs) (ofile : ℕ → Option File) (fd i offset : ℕ) : Prop where
  mapped : ∀ b, Maps s i (offset / bsize) b → baddr s ofile fd offset = some (s, b)
  unmapped : Unmapped s i (offset / bsize) → baddr s ofile fd offset = some (s, noBlock)

/-- The offsets that `baddr` rounds to the right block. -/
def RoundsRight (s : Fs) (i offset : ℕ) : Prop :=
  (offset % bsize = 0 ∧ offset / bsize < maxfile) ∨
    (Unmapped s i (offset / bsize) ∧ Unmapped s i (offset / bsize + 1) ∧
      offset / bsize + 1 < maxfile)

/-- `baddr` agrees with the read path exactly at the starts of blocks and before two blocks that
do not exist. -/
theorem baddr_locates_iff {s : Fs} {ofile : ℕ → Option File} {fd offset : ℕ} {f : File}
    (h : WellFormed s) (hfd : ofile fd = some f) :
    Locates s ofile fd f.ip offset ↔ RoundsRight s f.ip offset := by
  have hbaddr : baddr s ofile fd offset =
      bmap2 s f.ip (if offset % 512 ≠ 0 then offset / 512 + 1 else offset / 512) := by
    rw [baddr, hfd]
    rfl
  have hmax : maxfile = 16523 := rfl
  unfold RoundsRight
  rw [hmax, show bsize = 512 from rfl]
  by_cases hmod : offset % 512 = 0
  · rw [if_neg (not_not.mpr hmod)] at hbaddr
    by_cases hlt : offset / 512 < 16523
    · refine iff_of_true ?_ (.inl ⟨hmod, hlt⟩)
      obtain ⟨h1, h2⟩ := bmap2_agrees (i := f.ip) h hlt
      exact ⟨fun b hb => hbaddr.trans (h1 b hb), fun hno => hbaddr.trans (h2 hno)⟩
    · refine iff_of_false ?_ (by omega)
      rintro ⟨-, h2⟩
      have hno : Unmapped s f.ip (offset / 512) := by
        intro b hb
        rw [Maps, bmap_out_of_range s f.ip (by omega)] at hb
        cases hb
      have hnone := h2 hno
      rw [hbaddr, bmap2_out_of_range s f.ip (by omega)] at hnone
      cases hnone
  · rw [if_pos hmod] at hbaddr
    by_cases hlt : offset / 512 + 1 < 16523
    · rw [bmap2_eq s f.ip hlt] at hbaddr
      simp only [hmod, hlt, false_and, false_or, and_true]
      have hval : ∀ b, baddr s ofile fd offset = some (s, b) ↔
          (if s.ptr (f.ip, .data (offset / 512 + 1)) = 0 then noBlock
            else s.ptr (f.ip, .data (offset / 512 + 1))) = b := by
        intro b
        rw [hbaddr, Option.some.injEq, Prod.mk.injEq, and_iff_right rfl]
      have hrange : ∀ {v}, s.ptr v ≠ 0 → s.ptr v ≠ noBlock := by
        intro v hv e
        have h1 := (h.owned.range hv).2
        have h2 := h.layout.size_lt
        have h3 : noBlock = 4294967295 := rfl
        omega
      constructor
      · rintro ⟨h1, h2⟩
        -- the rounded block would have to be the one that was asked for
        have hne : s.ptr (f.ip, .data (offset / 512)) = 0 := by
          by_contra hne
          have hgot := (hval _).1 (h1 _ ((maps_iff h).2 ⟨rfl, hne⟩))
          by_cases h0 : s.ptr (f.ip, .data (offset / 512 + 1)) = 0
          · rw [if_pos h0] at hgot
            exact hrange hne hgot.symm
          · rw [if_neg h0] at hgot
            have hv := h.owned.inj h0 hgot
            rw [Prod.mk.injEq, Slot.data.injEq] at hv
            exact Nat.succ_ne_self (offset / 512) hv.2
        have hno := (unmapped_iff h).2 hne
        have hgot := (hval _).1 (h2 hno)
        refine ⟨hno, (unmapped_iff h).2 ?_⟩
        by_contra h0
        rw [if_neg h0] at hgot
        exact hrange h0 hgot
      · rintro ⟨hno, hno'⟩
        refine ⟨fun b hb => absurd hb (hno b), fun _ => (hval _).2 ?_⟩
        exact if_pos ((unmapped_iff h).1 hno')
    · rw [bmap2_out_of_range s f.ip (by omega)] at hbaddr
      refine iff_of_false ?_ ?_
      · rintro ⟨h1, h2⟩
        by_cases h0 : s.ptr (f.ip, .data (offset / 512)) = 0
        · rw [h2 ((unmapped_iff h).2 h0)] at hbaddr
          cases hbaddr
        · rw [h1 _ ((maps_iff h).2 ⟨rfl, h0⟩)] at hbaddr
          cases hbaddr
      · rintro (⟨h1, -⟩ | ⟨-, -, h1⟩)
        · exact hmod h1
        · exact hlt h1

/-- One open file, inode 1. -/
def oneFile : ℕ → Option File := fun fd => if fd = 3 then some ⟨.inode, true, 1, 0⟩ else none

/-- The start of a block. -/
theorem baddr_locates_scattered : Locates scattered oneFile 3 1 1024 :=
  (baddr_locates_iff scattered_wellFormed (f := ⟨.inode, true, 1, 0⟩) rfl).2
    (.inl ⟨by decide, by decide⟩)

/-- Byte 100 of a file lies in its first block, 63; `baddr` returns its second, 64. -/
theorem baddr_off_by_one : ¬ ∀ s ofile fd f offset, WellFormed s → ofile fd = some f →
    offset < (s.inode f.ip).size → Locates s ofile fd f.ip offset := by
  intro h
  have hloc := h scattered oneFile 3 ⟨.inode, true, 1, 0⟩ 100 scattered_wellFormed rfl (by decide)
  have hmaps : Maps scattered 1 (100 / bsize) 63 := rfl
  have hgot := hloc.mapped 63 hmaps
  have hcode : baddr scattered oneFile 3 100 = some (scattered, 64) := rfl
  rw [hcode, Option.some.injEq, Prod.mk.injEq] at hgot
  exact absurd hgot.2 (by decide)

end BigFile
