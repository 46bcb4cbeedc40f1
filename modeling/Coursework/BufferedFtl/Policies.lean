import Mathlib.Data.Rat.Floor
import Coursework.Lib.Selection
import Coursework.BufferedFtl.Ftl
import Coursework.PageMap.Opening

/-! The victim selectors of lab 3 for the three settings of `GC_POLICY`, and the FTL built with any
of them. Scores are exact rationals, converted to `int` where the code does. -/
namespace BufferedFtl
open Nand Sector PageMap Selection

/-- `enum gc_policy`. -/
inductive Policy where
  | gcGreedy
  | gcCb
  | gcCat
  deriving DecidableEq, Repr

/-- A build of the FTL: its `GC_POLICY`, what a conversion to `int` out of range yields, and what
an uninitialised `ret_pblk` holds. -/
structure Build where
  policy : Policy
  overflow : ℤ
  junk : ℕ

/-- `INT_MAX`; `(int)1.79769e+308`, which the compiler folds, is also this. -/
def intMax : ℤ := 2147483647

/-- The conversion of a `double` to `int`, which cuts off the fraction. -/
def toInt (overflow : ℤ) (x : ℚ) : ℤ :=
  let n := if 0 ≤ x then ⌊x⌋ else ⌈x⌉
  if -intMax - 1 ≤ n ∧ n ≤ intMax then n else overflow

/-- `(int)(a / b)` for doubles; a division by zero gives nothing that fits an `int`. -/
def divInt (overflow : ℤ) (a b : ℚ) : ℤ := if b = 0 then overflow else toInt overflow (a / b)

/-- The valid pages of a block, as `get_u` counts them. -/
def validPages (s : Bank Wear) (pblk : ℕ) : ℕ := validCnt geometry s.isValid pblk pagesPerBlk

def getU (s : Bank Wear) (pblk : ℕ) : ℚ :=
  if validPages s pblk = 0 then 0 else (validPages s pblk : ℚ) / pagesPerBlk

/-- The blocks that `get_victim_pblk_cb` and `get_victim_pblk_cat` pass over. -/
def Skipped (s : Bank Wear) (pblk : ℕ) : Prop := s.aux.age pblk = -1 ∨ pblk = s.freePblk

instance (s : Bank Wear) : DecidablePred (Skipped s) := fun _ => inferInstanceAs (Decidable (_ ∨ _))

namespace Build

/-- `score` in `get_victim_pblk_cb`. -/
def cbScore (b : Build) (s : Bank Wear) (pblk : ℕ) : ℤ :=
  let u := getU s pblk
  divInt b.overflow ((1 - u) * s.aux.age pblk) (2 * u)

/-- `get_victim_pblk_cb`; `max_score` starts at `0`. -/
def getVictimPblkCb (b : Build) (s : Bank Wear) : ℕ :=
  (scanDown (fun maxScore score : ℚ => maxScore ≤ score) (Skipped s) (fun pblk => b.cbScore s pblk)
    blksPerBank (0, b.junk)).2

/-- `score` in `get_victim_pblk_cat`. -/
def catScore (b : Build) (s : Bank Wear) (pblk : ℕ) : ℤ :=
  let u := getU s pblk
  if u = 1 then intMax
  else divInt b.overflow (u * s.aux.eraseCount pblk) ((1 - u) * s.aux.age pblk)

/-- `get_victim_pblk_cat`; `min_score` starts at `1.79769e+308`. -/
def getVictimPblkCat (b : Build) (s : Bank Wear) : ℕ :=
  (scanDown (fun minScore score : ℚ => score ≤ minScore) (Skipped s)
    (fun pblk => b.catScore s pblk) blksPerBank (179769 * 10 ^ 303, b.junk)).2

/-- The `victim_pblk` of `garbage_collection`. -/
def victimPblk (b : Build) (s : Bank Wear) : ℕ :=
  match b.policy with
  | .gcGreedy => getVictimPblkGreedy s
  | .gcCb => b.getVictimPblkCb s
  | .gcCat => b.getVictimPblkCat s

def garbageCollection (b : Build) (bank : ℕ) (s : Bank Wear) : Bank Wear :=
  collect geometry hooks bank (b.victimPblk s)
    { s with stats := { s.stats with gcCnt := s.stats.gcCnt + 1 } }

/-- The `garbage_collection` of `write_through_lpn`, if the next page is the trigger. -/
def makeRoom (b : Build) (bank : ℕ) (s : Bank Wear) : Bank Wear :=
  if s.nextPpn = s.gcTriggerPpn then b.garbageCollection bank s else s

def writeThroughLpn (b : Build) (s : Ftl) (bank halvedLpn : ℕ) (data : Sectors) : Ftl :=
  let x := b.makeRoom bank (s.toBanks.bank bank)
  { s with toBanks := s.toBanks.put bank (appendLpn geometry hooks bank halvedLpn data x) }

/-! The calls of the driver, with this `write_through_lpn`. -/

def send (b : Build) (w : Writing) (buf : ℕ → Word) (bank halvedLpn off n : ℕ) : Writing :=
  w.sendBy b.writeThroughLpn buf bank halvedLpn off n

def directSingle (b : Build) (r : Request) (buf : ℕ → Word) (w : Writing) : Writing :=
  directSingleBy b.writeThroughLpn r buf w

def directPage (b : Build) (r : Request) (buf : ℕ → Word) (pp : ℕ) (w : Writing) : Writing :=
  directPageBy b.writeThroughLpn r buf pp w

def directLoop (b : Build) (r : Request) (buf : ℕ → Word) (w : Writing) (n : ℕ) : Writing :=
  directLoopBy b.writeThroughLpn r buf w n

def writeDirectlyNand (b : Build) (s : Ftl) (lba nsect : ℕ) (buf : ℕ → Word) : Ftl :=
  writeDirectlyNandBy b.writeThroughLpn s lba nsect buf

def flushEntry (b : Build) (s : Ftl) (bufferPpn : ℕ) : Ftl :=
  flushEntryBy b.writeThroughLpn s bufferPpn

def flushLoop (b : Build) (s : Ftl) (n : ℕ) : Ftl := flushLoopBy b.writeThroughLpn s n

def ftlFlush (b : Build) (s : Ftl) : Ftl := ftlFlushBy b.writeThroughLpn s

theorem flushLoop_succ (b : Build) (s : Ftl) (n : ℕ) :
    b.flushLoop s (n + 1) = b.flushEntry (b.flushLoop s n) n := rfl

def writeToBuffer (b : Build) (s : Ftl) (lba nsect : ℕ) (buf : ℕ → Word) : Ftl :=
  writeToBufferBy b.writeThroughLpn s lba nsect buf

def ftlWrite (b : Build) (s : Ftl) (lba nsect : ℕ) (buf : ℕ → Word) : Ftl :=
  ftlWriteBy b.writeThroughLpn s lba nsect buf

def step (b : Build) (s : Ftl) (op : Op) : Ftl := stepBy b.writeThroughLpn s op

/-! Under `gc_greedy` this is the FTL as it is configured. -/
section Greedy
variable {b : Build} (hb : b.policy = .gcGreedy)
include hb

theorem victimPblk_greedy (s : Bank Wear) : b.victimPblk s = getVictimPblkGreedy s := by
  unfold victimPblk
  rw [hb]

theorem writeThroughLpn_greedy : b.writeThroughLpn = BufferedFtl.writeThroughLpn := by
  funext s bank halvedLpn data
  unfold writeThroughLpn BufferedFtl.writeThroughLpn Banks.writeThroughLpn PageMap.writeThroughLpn
    makeRoom garbageCollection
  rw [victimPblk_greedy hb]
  rfl

theorem step_greedy : b.step = BufferedFtl.step := by
  funext s op
  unfold step BufferedFtl.step
  rw [writeThroughLpn_greedy hb]

end Greedy

end Build

end BufferedFtl
