import Chronicle.Proofs.Replay.Finality

/-!
# What becomes of each record

Playback takes the records of a stream in order and every one once.  A stale
record is passed over and counted, if the policy says so; any other record makes
the outcome of one call, whether a frame or an error.  What stands behind the
last record makes the outcomes of all further calls.
-/

namespace Chronicle.Replay

open Chronicle.Loop

variable {policy : StalePolicy} {registry : Registry} {c : LoopLimits} {tail : Bytes}
  {rec : Record} {front left : List Record} {first rest : Outcome}

/-! ## The records that make an outcome -/

/-- What the octets behind the last record come to: nothing follows, or one error
of the reader and from then on that it has failed. -/
inductive Ends : Bytes → Outcome → Outcome → Prop
  | clean : Ends [] (.ok none) (.ok none)
  | malformed {b : UInt8} {bs : Bytes} {e : LoopError} : e ≠ .readerFailed →
      Ends (b :: bs) (.error (.loop e)) (.error (.loop .readerFailed))

def Malformed (c : LoopLimits) (bs : Bytes) : Prop :=
  ∀ rec : Record, rec.refusal? c = none → ¬ rec.encode <+: bs

namespace Playback

variable {p q : Playback} {type : Ty}

/-! ## Taking records -/

def past (p : Playback) (rec : Record) : Playback where
  registry := p.registry
  reader := (p.reader.behind rec.encode.length).counted
  policy := p.policy
  limits := p.limits
  index := p.index + 1
  skipped := if p.policy.passes p.registry rec then p.skipped + 1 else p.skipped

structure Streams (c : LoopLimits) (left : List Record) (tail : Bytes) (p : Playback) : Prop where
  window : c.maxComment + 2 < leBound 8
  fits : ∀ rec ∈ left, rec.refusal? c = none
  malformed : Malformed c tail
  limits_eq : p.reader.limits = c
  active : p.reader.Active
  plain : p.reader.source.Plain
  run_eq : p.reader.source.run = left.flatMap Record.encode ++ tail

structure Tally (p : Playback) (taken : List Record) (q : Playback) : Prop where
  index_eq : q.index = p.index + taken.length
  recordsRead_eq : q.reader.recordsRead = p.reader.recordsRead + taken.length
  skipped_eq : q.skipped = p.skipped + taken.countP (p.policy.passes p.registry)

theorem terms_foldl_past (p : Playback) (records : List Record) :
    (records.foldl past p).registry = p.registry ∧ (records.foldl past p).policy = p.policy ∧
      (records.foldl past p).limits = p.limits := by
  induction records generalizing p with
  | nil => exact ⟨rfl, rfl, rfl⟩
  | cons rec records ih => exact ih (p.past rec)

theorem tally_foldl_past (p : Playback) (records : List Record) :
    p.Tally records (records.foldl past p) := by
  induction records generalizing p with
  | nil => exact ⟨rfl, rfl, rfl⟩
  | cons rec records ih =>
      obtain ⟨index, recordsRead, skipped⟩ := ih (p.past rec)
      have further : (p.past rec).index = p.index + 1 := rfl
      have counted : (p.past rec).reader.recordsRead = p.reader.recordsRead + 1 := rfl
      refine ⟨?_, ?_, ?_⟩
      · rw [List.foldl_cons, List.length_cons, index, further]
        omega
      · rw [List.foldl_cons, List.length_cons, recordsRead, counted]
        omega
      · rw [List.foldl_cons, List.countP_cons, skipped]
        simp only [past]
        split <;> omega

theorem Tally.after (later : (front.foldl past p).Tally left q) : p.Tally (front ++ left) q := by
  obtain ⟨index, recordsRead, skipped⟩ := later
  obtain ⟨index', recordsRead', skipped'⟩ := tally_foldl_past p front
  obtain ⟨registry, policy, -⟩ := terms_foldl_past p front
  rw [registry, policy] at skipped
  refine ⟨?_, ?_, ?_⟩
  · rw [List.length_append]
    omega
  · rw [List.length_append]
    omega
  · rw [List.countP_append]
    omega

theorem Streams.past (streams : p.Streams c (rec :: left) tail) :
    (p.past rec).Streams c left tail where
  window := streams.window
  fits := (List.forall_mem_cons.mp streams.fits).2
  malformed := streams.malformed
  limits_eq := streams.limits_eq
  active := Reader.active_counted _
  plain := ⟨streams.plain.later_eq, streams.plain.fails_eq⟩
  run_eq := by simp [Playback.past, Reader.counted, Reader.behind, streams.run_eq]

theorem Streams.next (streams : p.Streams c (rec :: left) tail) :
    p.reader.next = .ok (some rec) (p.past rec).reader := by
  obtain ⟨window, fits, _, rfl, active, _, start⟩ := streams
  rw [List.flatMap_cons, List.append_assoc] at start
  exact (Reader.next_eq_some active window).mpr ⟨fits rec List.mem_cons_self, ⟨_, start⟩, rfl⟩

theorem Streams.length_lt (streams : p.Streams c left tail) : left.length < p.recordBound := by
  have octets : left.length ≤ (left.flatMap Record.encode).length := by
    clear streams
    induction left with
    | nil => simp
    | cons rec left ih =>
        have := Reader.length_encode_pos rec
        rw [List.flatMap_cons, List.length_append, List.length_cons]
        omega
  have run := congrArg List.length streams.run_eq
  rw [List.length_append] at run
  rw [recordBound, Source.size]
  omega

/-! ## One call -/

structure Closes (p : Playback) (tail : Bytes) (first rest : Outcome) (q : Playback) : Prop where
  ends : Ends tail first rest
  tally : p.Tally [] q
  seek_eq : ∀ type fuel, p.seek type (fuel + 1) = (first, q)
  plays_eq : ∀ types : List Ty, q.plays types = (types.map fun _ => rest, q)

end Playback

/-! ## Whole streams -/

end Chronicle.Replay
