import Coursework.Seat.Server
import Mathlib.Data.List.GetD

/-! The loop of `thread_func` on the bytes of a connection: one execution for every `read` that
does not fail, whatever it delivers. -/
namespace Seat

/-- The bytes of the local `query q`. -/
abbrev Buffer := Fin 12 → UInt8

/-- The little-endian `int` at one of the three fields of the buffer. -/
def Buffer.word (q : Buffer) (field : Fin 3) : ℤ :=
  let byte := fun i : Fin 4 => (q ⟨4 * field + i, by omega⟩).toNat
  (Int32.ofNat (byte 0 + 256 * byte 1 + 65536 * byte 2 + 16777216 * byte 3)).toInt

def Buffer.query (q : Buffer) : Query := ⟨q.word 0, q.word 1, q.word 2⟩

/-- The query by which a client exits. -/
def Query.isExit (q : Query) : Bool := q.user == 0 && q.action == 0 && q.seat == 0

/-- What `read` may deliver at once. -/
abbrev Chunk := {bytes : List UInt8 // 0 < bytes.length ∧ bytes.length ≤ 12}

/-- The result of a `read`: bytes, 0 or a negative number. -/
inductive Read where
  | data (chunk : Chunk)
  | eof
  | error

/-- How a connection ends. All further reads give the same result. -/
inductive End where
  | eof
  | error
  deriving DecidableEq

def End.read : End → Read
  | eof => .eof
  | error => .error

/-- The thread of a connection: its buffer, whether it has returned, the bytes received, and
the queries executed so far, each with the bytes received by then. -/
structure Worker where
  q : Buffer
  exited : Bool
  received : ℕ
  calls : List (Query × ℕ)

/-- The `switch` of `thread_func`. -/
def Worker.execute (w : Worker) : Worker :=
  { w with exited := w.q.query.isExit, calls := w.calls ++ [(w.q.query, w.received)] }

/-- The buffer after a `read` of some bytes. -/
def Buffer.fill (q : Buffer) (bytes : List UInt8) : Buffer := fun i => bytes[(i : ℕ)]?.getD (q i)

/-- A round of the loop of `thread_func`. -/
def Worker.round (w : Worker) (r : Read) : Worker :=
  if w.exited then w
  else match r with
    | .error => w
    | .eof => w.execute
    | .data chunk => { w with
        q := w.q.fill chunk.val, received := w.received + chunk.val.length : Worker }.execute

/-- The thread after the reads of a stream in chunks and `k` more. The buffer of a new thread
is not set to anything. -/
def threadFunc (q : Buffer) (chunks : List Chunk) (stop : End) (k : ℕ) : Worker :=
  (chunks.map Read.data ++ List.replicate k stop.read).foldl Worker.round ⟨q, false, 0, []⟩

/-- The query with a number in a stream. -/
def queryAt (bytes : List UInt8) (i : ℕ) : Query :=
  Buffer.query fun j => bytes.getD (12 * i + j) 0

/-- The complete queries of a stream. -/
def queries (bytes : List UInt8) : List Query :=
  (List.range (bytes.length / 12)).map (queryAt bytes)

/-- The queries up to the exit query. -/
def upToExit : List Query → List Query
  | [] => []
  | q :: qs => if q.isExit then [q] else q :: upToExit qs

/-- The executions are the complete queries of the stream up to the exit query, each after
all its bytes. -/
def Framed (q : Buffer) (chunks : List Chunk) (stop : End) : Prop :=
  ∀ k, (threadFunc q chunks stop k).calls.map Prod.fst =
      upToExit (queries (chunks.map Subtype.val).flatten) ∧
    ∀ i call, (threadFunc q chunks stop k).calls[i]? = some call → 12 * (i + 1) ≤ call.2

/-- Every `read` before the thread returns delivers a whole query, and if no exit query comes
the connection ends with an error. -/
def WholeReads : List Chunk → End → Prop
  | [], stop => stop = .error
  | chunk :: chunks, stop => chunk.val.length = 12 ∧
    ((queryAt chunk.val 0).isExit = true ∨ WholeReads chunks stop)

theorem fill_whole (q : Buffer) {bytes : List UInt8} (h : bytes.length = 12) :
    (q.fill bytes).query = queryAt bytes 0 := by
  apply congrArg Buffer.query
  funext j
  have hj : (j : ℕ) < bytes.length := by omega
  simp [Buffer.fill, List.getD_eq_getElem?_getD, List.getElem?_eq_getElem hj]

theorem queries_append {bytes : List UInt8} (h : bytes.length = 12) (rest : List UInt8) :
    queries (bytes ++ rest) = queryAt bytes 0 :: queries rest := by
  have hlen : (bytes ++ rest).length / 12 = rest.length / 12 + 1 := by
    rw [List.length_append]
    omega
  unfold queries
  rw [hlen, List.range_succ_eq_map, List.map_cons, List.map_map]
  congr 1
  · apply congrArg Buffer.query
    funext j
    rw [List.getD_append _ _ _ _ (by omega)]
  · apply List.map_congr_left
    intro i _
    apply congrArg Buffer.query
    funext j
    rw [List.getD_append_right _ _ _ _ (by omega)]
    congr 1
    omega

theorem round_calls (w : Worker) (r : Read) : w.calls <+: (w.round r).calls := by
  unfold Worker.round
  split
  · exact List.prefix_refl _
  · cases r with
    | error => exact List.prefix_refl _
    | eof => exact List.prefix_append _ _
    | data chunk => exact List.prefix_append _ _

theorem foldl_round_calls (reads : List Read) (w : Worker) :
    w.calls <+: (reads.foldl Worker.round w).calls := by
  induction reads generalizing w with
  | nil => exact List.prefix_refl _
  | cons r reads ih => exact (round_calls w r).trans (ih _)

theorem foldl_round_exited (reads : List Read) {w : Worker} (h : w.exited = true) :
    reads.foldl Worker.round w = w := by
  induction reads with
  | nil => rfl
  | cons r reads ih =>
    have hround : w.round r = w := if_pos h
    rw [List.foldl_cons, hround, ih]

theorem foldl_round_error (k : ℕ) (w : Worker) :
    (List.replicate k End.error.read).foldl Worker.round w = w := by
  have hround : w.round .error = w := by
    unfold Worker.round
    split <;> rfl
  induction k with
  | zero => rfl
  | succ k ih =>
    rw [List.replicate_succ, List.foldl_cons]
    exact (congrArg (List.foldl Worker.round · _) hround).trans ih

/-- `Framed` from a state between two rounds on. -/
def FramedFrom (w : Worker) (chunks : List Chunk) (stop : End) : Prop :=
  ∀ k, let w' := (chunks.map Read.data ++ List.replicate k stop.read).foldl Worker.round w
    w'.calls.map Prod.fst =
      w.calls.map Prod.fst ++ upToExit (queries (chunks.map Subtype.val).flatten) ∧
    ∀ i call, w.calls.length ≤ i → w'.calls[i]? = some call → 12 * (i + 1) ≤ call.2

section Round
variable {w : Worker} {chunk : Chunk} {chunks : List Chunk} {stop : End}

theorem round_data (hw : w.exited = false) : w.round (.data chunk) = { w with
    q := w.q.fill chunk.val, received := w.received + chunk.val.length : Worker }.execute :=
  if_neg (by rw [hw]; exact Bool.false_ne_true)

/-- After a whole query that is not the exit query, the rest of the stream decides. -/
theorem framedFrom_cons (hw : w.exited = false) (hr : w.received = 12 * w.calls.length)
    (hlen : chunk.val.length = 12)
    (hexit : (queryAt chunk.val 0).isExit = false) :
    FramedFrom w (chunk :: chunks) stop ↔ FramedFrom (w.round (.data chunk)) chunks stop := by
  have hcalls : (w.round (.data chunk)).calls =
      w.calls ++ [(queryAt chunk.val 0, 12 * (w.calls.length + 1))] := by
    rw [round_data hw, Worker.execute]
    dsimp only
    rw [fill_whole _ hlen, hr, hlen, Nat.mul_succ]
  have hexpected : upToExit (queries ((chunk :: chunks).map Subtype.val).flatten) =
      queryAt chunk.val 0 ::
        upToExit (queries (chunks.map Subtype.val).flatten) := by
    rw [List.map_cons, List.flatten_cons, queries_append hlen, upToExit, hexit]
    rfl
  unfold FramedFrom
  apply forall_congr'
  intro k
  rw [hexpected, List.map_cons, List.cons_append, List.foldl_cons]
  dsimp only
  have hprefix := foldl_round_calls (chunks.map Read.data ++ List.replicate k stop.read)
    (w.round (.data chunk))
  set w' := (chunks.map Read.data ++ List.replicate k stop.read).foldl Worker.round
    (w.round (.data chunk))
  rw [hcalls, List.map_append, List.append_assoc]
  apply and_congr_right
  intro _
  constructor
  · intro h i call hi
    apply h i call
    rw [List.length_append] at hi
    omega
  · intro h i call hi hcall
    obtain rfl | hlt := hi.eq_or_lt
    · rw [hcalls] at hprefix
      obtain ⟨more, hmore⟩ := hprefix
      rw [← hmore, List.append_assoc, List.getElem?_append_right le_rfl, Nat.sub_self] at hcall
      cases hcall
      exact le_rfl
    · apply h i call _ hcall
      rw [List.length_append, List.length_singleton]
      exact hlt

theorem framedFrom_iff (hw : w.exited = false) (hr : w.received = 12 * w.calls.length) :
    FramedFrom w chunks stop ↔ WholeReads chunks stop := by
  induction chunks generalizing w with
  | nil =>
    cases stop with
    | eof =>
      refine iff_of_false (fun h => ?_) End.noConfusion
      have hlast : w.round .eof = w.execute := if_neg (by rw [hw]; exact Bool.false_ne_true)
      have hmap := congrArg List.length (h 1).1
      simp [hlast, End.read, Worker.execute, queries, upToExit] at hmap
    | error =>
      refine iff_of_true (fun k => ?_) rfl
      rw [List.map_nil, List.nil_append, foldl_round_error]
      refine ⟨(List.append_nil _).symm, fun i call hi hcall => ?_⟩
      rw [List.getElem?_eq_none hi] at hcall
      cases hcall
  | cons chunk chunks ih =>
    by_cases hlen : chunk.val.length = 12
    · cases hexit : (queryAt chunk.val 0).isExit with
      | true =>
        refine iff_of_true (fun k => ?_) ⟨hlen, .inl hexit⟩
        have hexited : (w.round (.data chunk)).exited = true := by
          rw [round_data hw, Worker.execute]
          dsimp only
          rw [fill_whole _ hlen, hexit]
        have hcalls : (w.round (.data chunk)).calls =
            w.calls ++ [(queryAt chunk.val 0,
              12 * (w.calls.length + 1))] := by
          rw [round_data hw, Worker.execute]
          dsimp only
          rw [fill_whole _ hlen, hr, hlen, Nat.mul_succ]
        rw [List.map_cons, List.cons_append, List.foldl_cons, foldl_round_exited _ hexited,
          List.map_cons, List.flatten_cons, queries_append hlen, upToExit, if_pos hexit]
        dsimp only
        rw [hcalls]
        refine ⟨by rw [List.map_append]; rfl, fun i call hi hcall => ?_⟩
        obtain rfl | hlt := hi.eq_or_lt
        · rw [List.getElem?_append_right le_rfl, Nat.sub_self] at hcall
          cases hcall
          exact le_rfl
        · rw [List.getElem?_eq_none (by rw [List.length_append]; exact hlt)] at hcall
          cases hcall
      | false =>
        rw [framedFrom_cons hw hr hlen hexit, ih, WholeReads, hexit]
        · exact ⟨fun h => ⟨hlen, .inr h⟩, fun h => h.2.resolve_left Bool.false_ne_true⟩
        · rw [round_data hw, Worker.execute]
          dsimp only
          rw [fill_whole _ hlen, hexit]
        · rw [round_data hw, Worker.execute]
          dsimp only
          rw [List.length_append, List.length_singleton, hr, hlen, Nat.mul_succ]
    · refine iff_of_false (fun h => ?_) fun h => hlen h.1
      -- the execution after this read comes too early
      obtain ⟨more, hmore⟩ := foldl_round_calls (chunks.map Read.data) (w.round (.data chunk))
      have htime := (h 0).2 w.calls.length
        ((w.q.fill chunk.val).query, w.received + chunk.val.length) le_rfl
      rw [List.replicate_zero, List.append_nil, List.map_cons, List.foldl_cons, ← hmore,
        round_data hw, Worker.execute] at htime
      have hshort := chunk.property.2
      have := htime (by
        rw [List.append_assoc, List.getElem?_append_right le_rfl, Nat.sub_self]
        rfl)
      dsimp only at this
      omega

end Round

/-- `thread_func` executes the complete queries of a stream, each after all its bytes and
none twice, if and only if every `read` up to the exit query delivers a whole query and a
connection without an exit query ends with an error. -/
theorem framing (q : Buffer) (chunks : List Chunk) (stop : End) :
    Framed q chunks stop ↔ WholeReads chunks stop := by
  rw [← framedFrom_iff (w := ⟨q, false, 0, []⟩) rfl rfl]
  unfold Framed FramedFrom threadFunc
  apply forall_congr'
  intro k
  exact and_congr Iff.rfl ⟨fun h i call _ => h i call, fun h i call => h i call (Nat.zero_le i)⟩

/-- A connection that sends one login and is closed by the client. -/
def loginThenEof : List Chunk := [⟨[0, 0, 0, 0, 1, 0, 0, 0, 5, 0, 0, 0], by decide⟩]

/-- The login is executed again for every `read` at the end of the stream. -/
theorem login_repeated : ¬ ∀ q chunks stop, Framed q chunks stop := by
  intro h
  have htwice := congrArg List.length (h (fun _ => 0) loginThenEof .eof 1).1
  exact absurd htwice (by decide)

end Seat
