import Chronicle.Config.Load
import Chronicle.Proofs.Loop.CommentWindow
import Chronicle.Proofs.Walk.Steady

/-!
# Limits and the widths they meet

A host holds limits, open levels and lengths in machine words, and the formats hold
lengths in fields of four octets.  Under limits that were found valid all that is
counted and narrowed stays within its width, but for one sum: the window of a comment
is two octets wider than the limit on comments, and that limit has no range.
-/

namespace Chronicle

open Success

/-! ## Limits that can be given -/

namespace Limits

variable {l : Limits}

structure Words (l : Limits) : Prop where
  maxDepth : l.walk.maxDepth < leBound 8
  maxSequence : l.walk.maxSequence < leBound 8
  maxComment : l.loop.maxComment < leBound 8
  maxPayload : l.loop.maxPayload < leBound 8

instance (l : Limits) : Decidable l.Words :=
  decidable_of_iff (l.walk.maxDepth < leBound 8 ∧ l.walk.maxSequence < leBound 8 ∧
      l.loop.maxComment < leBound 8 ∧ l.loop.maxPayload < leBound 8)
    ⟨fun ⟨depth, sequence, comment, payload⟩ => ⟨depth, sequence, comment, payload⟩,
      fun ⟨depth, sequence, comment, payload⟩ => ⟨depth, sequence, comment, payload⟩⟩

theorem validate_eq_ok : l.validate = .ok () ↔ l.walk.maxDepth ≠ 0 ∧
    l.walk.maxSequence ≤ maxPrefix ∧ l.loop.maxPayload ≤ maxPayloadField := by
  have valid : (pure () : Except InvalidLimit Unit) = .ok () := rfl
  by_cases shallow : l.walk.maxDepth = 0
  · simp [validate, shallow, except_bind_eq_ok]
  · by_cases long : maxPrefix < l.walk.maxSequence
    · simp [validate, shallow, long, Nat.not_le.mpr long, except_bind_eq_ok]
    · by_cases large : maxPayloadField < l.loop.maxPayload
      · simp [validate, shallow, long, large, Nat.not_le.mpr large]
      · simp [validate, shallow, long, large, Nat.not_lt.mp long, Nat.not_lt.mp large, valid]

inductive Given : Limits → Prop
  | checked {l : Limits} : l.validate = .ok () → Given l
  | loaded {l : Limits} (parse? : Config.Format → String → Option Limits) (d : Directory)
      (path : String) : Config.load parse? d path = .ok l → Given l
  | found {l : Limits} (parse? : Config.Format → String → Option Limits) (d : Directory)
      (base : String) : Config.loadBase parse? d base = .ok l → Given l

theorem validate_of_load {parse? : Config.Format → String → Option Limits} {d : Directory}
    {path : String} (loaded : Config.load parse? d path = .ok l) : l.validate = .ok () := by
  obtain ⟨format, _, loaded⟩ := except_bind_eq_ok.mp loaded
  cases read : Config.readText? d path with
  | none => simp [read] at loaded
  | some text =>
      simp only [read] at loaded
      cases parsed : parse? format text with
      | none => simp [parsed] at loaded
      | some given =>
          simp only [parsed] at loaded
          cases valid : given.validate with
          | error cause => simp [valid] at loaded
          | ok _ =>
              simp only [valid] at loaded
              obtain rfl := Except.ok.inj loaded
              exact valid

theorem Given.valid (given : l.Given) : l.validate = .ok () := by
  cases given with
  | checked valid => exact valid
  | loaded _ _ _ loaded => exact validate_of_load loaded
  | found _ _ _ loaded =>
      obtain ⟨path, _, loaded⟩ := except_bind_eq_ok.mp loaded
      cases path with
      | some path => exact validate_of_load loaded
      | none =>
          obtain rfl := Except.ok.inj loaded
          rfl

end Limits

/-! ## Counts and fields -/

/-- The count of open levels goes up and down in a machine word without leaving it. -/
structure Moment.Counted {γ σ ε α : Type} (w : Calls γ σ ε α) (m : Moment γ σ ε α) : Prop where
  depth_lt : m.depth < leBound 8
  up : ∀ way goal s resume, m.turn = .calls way goal s resume → w.refusal m way goal = none →
    (m.enter way).depth < leBound 8
  down : ∀ frame ∈ m.stack, frame.way.opens = true → 0 < m.depth

theorem Calls.Course.counted {γ σ ε α : Type} {w : Calls γ σ ε α} {eval : Nat → γ → EStateM ε σ α}
    {first : Moment γ σ ε α} {steps : Nat} {outcome : EStateM.Result ε σ α}
    (course : w.Course eval first steps outcome) (word : w.limit < leBound 8) (k : Nat) :
    (w.step^[k] first).Counted w where
  depth_lt := Nat.lt_of_le_of_lt (course.depth_le k) word
  up := by
    intro way goal s resume taken made
    have next := course.depth_le (k + 1)
    rw [Function.iterate_succ_apply'] at next
    generalize w.step^[k] first = m at taken made next
    simp only [Calls.step, taken, made] at next
    exact Nat.lt_of_le_of_lt next word
  down := by
    intro frame waits opens
    rw [course.depth_eq k]
    exact List.countP_pos_iff.mpr ⟨frame, waits, opens⟩

def ByteWriter.PrefixesUpTo (limit : Nat) (w : ByteWriter) : Prop :=
  ∀ n w', Writing.length n w = .ok () w' → n ≤ limit ∧ w' = w.append (Scalar.u32.encode n) ∧
    Scalar.u32.decode (Scalar.u32.encode n) = n

def ByteReader.PrefixesUpTo (limit : Nat) (r : ByteReader) : Prop :=
  ∀ n r', Reading.length r = .ok n r' → n ≤ limit ∧ r.Passes (Scalar.u32.encode n) r'

theorem ByteWriter.prefixesUpTo {w : ByteWriter} (narrow : w.limit ≤ maxPrefix) :
    w.PrefixesUpTo w.limit := by
  intro n w' accepted
  obtain ⟨within, rfl⟩ := (Writing.length_eq_ok narrow).mp accepted
  have small : n < leBound 4 := Nat.lt_of_le_of_lt (Nat.le_trans within narrow) (by decide)
  rw [Writing.encode_u32 small]
  refine ⟨within, rfl, ?_⟩
  rw [← Writing.encode_u32 small]
  exact Scalar.decode_encode ⟨Int.natCast_nonneg n, Int.ofNat_lt.mpr small⟩

theorem ByteReader.prefixesUpTo (r : ByteReader) : r.PrefixesUpTo r.limit := by
  intro n r' accepted
  obtain ⟨within, small, passes⟩ := Reading.length_eq_ok.mp accepted
  rw [Writing.encode_u32 small]
  exact ⟨within, passes⟩

/-! ## Validated limits -/

namespace Limits

variable {l : Limits}

/-- Under the limits no count of a walk leaves its word, and no length is cut short in
its field. -/
structure InRange (l : Limits) : Prop where
  writing : ∀ (r : Registry) assets g counter k,
    let o : WalkOptions := { limits := l.walk, assets }
    let m := r.snapshottingAt o g counter k
    m.Counted (r.writeContext o g).calls ∧ m.turn.state.out.PrefixesUpTo l.walk.maxSequence
  restoring : ∀ (r : Registry) assets type bs k,
    let o : WalkOptions := { limits := l.walk, assets }
    let m := r.restoringAt o type bs k
    m.Counted (r.readContext o).calls ∧ m.turn.state.input.PrefixesUpTo l.walk.maxSequence
  payload : ∀ (rec : Loop.Record) bs, rec.encode? l.loop = .ok bs →
    rec.payload.length ≤ l.loop.maxPayload ∧
      Scalar.i32.decode (leBytes 4 rec.payload.length) = rec.payload.length
  payloadLength : ∀ (r r' : Loop.Reader) n, r.limits = l.loop → r.payloadLength = .ok n r' →
    n ≤ l.loop.maxPayload ∧ r.Passes (Scalar.i32.encode n) r'

theorem inRange (words : l.Words) (valid : l.validate = .ok ()) : l.InRange := by
  obtain ⟨-, narrow, -⟩ := validate_eq_ok.mp valid
  constructor
  · intro r assets g counter k o m
    have limit : m.turn.state.out.limit = l.walk.maxSequence := by
      rw [r.limit_snapshottingAt, Nat.min_eq_left narrow]
    have prefixes := ByteWriter.prefixesUpTo (limit.trans_le narrow)
    rw [limit] at prefixes
    exact ⟨(r.course_snapshotting o g counter).counted words.maxDepth k, prefixes⟩
  · intro r assets type bs k o m
    have prefixes := ByteReader.prefixesUpTo m.turn.state.input
    rw [r.limit_restoringAt] at prefixes
    exact ⟨(r.course_restoring o type bs).counted words.maxDepth k, prefixes⟩
  · intro rec bs written
    have fits : rec.refusal? l.loop = none := by
      cases refused : rec.refusal? l.loop with
      | none => rfl
      | some e => simp [Loop.Record.encode?, refused] at written
    obtain ⟨-, -, within⟩ := Loop.Record.refusal?_eq_none.mp fits
    have small := Loop.Reader.encode_i32 (Nat.le_trans within (Nat.min_le_right _ _))
    refine ⟨Nat.le_trans within (Nat.min_le_left _ _), ?_⟩
    rw [← small.1]
    exact Scalar.decode_encode small.2
  · intro r r' n same read
    obtain ⟨within, passes⟩ := Loop.Reader.payloadLength_eq_ok.mp read
    rw [same] at within
    rw [(Loop.Reader.encode_i32 (Nat.le_trans within (Nat.min_le_right _ _))).1]
    exact ⟨Nat.le_trans within (Nat.min_le_left _ _), passes⟩

/-- Limits that were given keep all counts and lengths in range, but for the window of
a comment.  If its sum fits a word, each record that can be written is read back;
otherwise none is, and under such limits alone the sum is too wide for any octets. -/
theorem in_range_but_comments (words : l.Words) (given : l.Given) :
    l.InRange ∧
    (∀ (rec : Loop.Record) out rest, rec.encodeInto l.loop [] = .ok () out →
      Loop.Record.decode? l.loop (out ++ rest) =
        if l.loop.maxComment + 2 < leBound 8 then .ok (rec, out.length)
        else .error .windowOverflow) ∧
    ∀ bs, Loop.Record.decode? l.loop bs = .error .windowOverflow →
      leBound 8 ≤ l.loop.maxComment + 2 := by
  refine ⟨inRange words given.valid, fun rec out rest written => ?_, fun bs stops => ?_⟩
  · obtain ⟨fits, rfl⟩ := Loop.Record.encodeInto_eq_ok.mp written
    exact Loop.Record.decode?_encode_append fits rest
  · exact Loop.Record.overflow_of_decode? stops

def brief : Loop.Record where
  comment := "abc"
  fingerprint := ⟨1, 2, 3, 4⟩
  payload := []

theorem in_range_but_comments_default :
    let l : Limits := {}
    l.Words ∧ l.Given ∧ l.InRange ∧
      Loop.Record.decode? l.loop (brief.encode ++ [9]) = .ok (brief, 30) := by
  intro l
  have words : l.Words := by decide
  have given : l.Given := .found Config.Format.limits? ⟨[]⟩ "rewind" rfl
  obtain ⟨inRange, back, _⟩ := in_range_but_comments words given
  have written : brief.encodeInto l.loop [] = .ok () brief.encode := rfl
  exact ⟨words, given, inRange, back brief brief.encode [9] written⟩

def unlimited : Limits := { loop := { maxComment := 0xffffffffffffffff } }

/-- Valid limits under which a record can be written but not read back. -/
theorem comment_window_overflows : unlimited.Words ∧ unlimited.validate = .ok () ∧
    leBound 8 ≤ unlimited.loop.maxComment + 2 ∧
    brief.encodeInto unlimited.loop [] = .ok () brief.encode ∧
    Loop.Record.decode? unlimited.loop brief.encode = .error .windowOverflow := by
  have wide : leBound 8 ≤ unlimited.loop.maxComment + 2 := by decide
  have stops : Loop.Record.decode? unlimited.loop (brief.encode ++ []) = .error .windowOverflow :=
    Loop.Record.decode?_of_overflow wide []
  rw [List.append_nil] at stops
  exact ⟨by decide, rfl, wide, rfl, stops⟩

end Limits

end Chronicle
