import Chronicle.Proofs.Loop.Fields

/-!
# The record format

A record is decoded from the front of a byte string exactly when its written
form stands there, so writing and decoding are inverse to each other.  A buffer
that a record is appended to keeps what it had.
-/

namespace Chronicle.Loop

open Success

/-! ## Written forms -/

theorem toBytes_ofBytes {bs : Bytes} (width : bs.length = 16) :
    (Fingerprint.ofBytes bs).toBytes = bs := by
  have word : ∀ cs : Bytes, cs.length = 4 → leBytes 4 (UInt32.ofNat (ofLeBytes cs)).toNat = cs := by
    intro cs four
    have small : ofLeBytes cs < UInt32.size := by
      have := ofLeBytes_lt cs
      rw [four] at this
      exact this
    rw [UInt32.toNat_ofNat_of_lt' small, ← four, leBytes_ofLeBytes]
  have fourth : (bs.drop 12).take 4 = bs.drop 12 :=
    List.take_of_length_le (by rw [List.length_drop, width])
  simp only [Fingerprint.toBytes, Fingerprint.words, Fingerprint.ofBytes, List.flatMap_cons,
    List.flatMap_nil, List.append_nil]
  rw [word _ (by simp [width]), word _ (by simp [width]), word _ (by simp [width]),
    word _ (by simp [width]), fourth]
  have join : ∀ i, (bs.drop i).take 4 ++ bs.drop (i + 4) = bs.drop i := by
    intro i
    rw [← List.drop_drop, List.take_append_drop]
  rw [join 8, join 4]
  exact List.take_append_drop 4 bs

namespace Record

variable {limits : LoopLimits} {rec : Record}

theorem encode_eq (rec : Record) : rec.encode = magic ++ ([separator] ++
    ((Utf8.encode rec.comment ++ [separator, terminator]) ++ (rec.fingerprint.toBytes ++
      (leBytes 4 rec.payload.length ++ rec.payload)))) := by
  simp [encode]

theorem refusal?_eq_none : rec.refusal? limits = none ↔
    (Utf8.encode rec.comment).length ≤ limits.maxComment ∧ terminator ∉ Utf8.encode rec.comment ∧
      rec.payload.length ≤ payloadLimit limits := by
  unfold refusal?
  by_cases long : limits.maxComment < (Utf8.encode rec.comment).length
  · simp [long, Nat.not_le.mpr long]
  · by_cases zero : terminator ∈ Utf8.encode rec.comment
    · simp [long, zero]
    · by_cases large : payloadLimit limits < rec.payload.length
      · simp [long, zero, large, Nat.not_le.mpr large]
      · simp [long, zero, large, Nat.not_lt.mp long, Nat.not_lt.mp large]

theorem encodeInto_eq (limits : LoopLimits) (rec : Record) (buffer : Bytes) :
    rec.encodeInto limits buffer = match rec.refusal? limits with
      | some e => .error e buffer
      | none => .ok () (buffer ++ rec.encode) := by
  unfold encodeInto encode?
  cases rec.refusal? limits <;> rfl

theorem encodeInto_eq_ok {buffer out : Bytes} {u : Unit} :
    rec.encodeInto limits buffer = .ok u out ↔
      rec.refusal? limits = none ∧ out = buffer ++ rec.encode := by
  rw [encodeInto_eq]
  cases rec.refusal? limits <;> simp [eq_comm]

end Record

/-! ## Reading a record -/

namespace Reader

variable {r r' : Reader} {rec : Record}

theorem record_eq_ok (window : r.limits.maxComment + 2 < leBound 8) :
    record r = .ok rec r' ↔ rec.refusal? r.limits = none ∧ r.Passes rec.encode r' := by
  have spans : commentWindow r.limits = r.limits.maxComment + 2 := rfl
  rw [Record.refusal?_eq_none, Record.encode_eq]
  simp only [record, bind_eq_ok, field_eq_ok]
  constructor
  · rintro ⟨start, r₁, ⟨-, first⟩, run⟩
    by_cases letters : start = magic
    · simp only [letters, ne_eq, not_true_eq_false, ↓reduceIte, bind_eq_ok,
        field_eq_ok] at run first
      obtain ⟨gap, r₂, ⟨-, second⟩, run⟩ := run
      by_cases space : gap = [separator]
      · simp only [space, not_true_eq_false, ↓reduceIte, bind_eq_ok, comment_eq_ok,
          field_eq_ok, payloadLength_eq_ok, payload_eq_ok] at run second
        obtain ⟨text, r₃, ⟨⟨-, clean, short⟩, third⟩, words, r₄, ⟨width, fourth⟩, length, r₅,
          ⟨within, fifth⟩, bs, r₆, ⟨rfl, sixth⟩, run⟩ := run
        obtain ⟨rfl, rfl⟩ := pure_eq_ok.mp run
        rw [second.limits_eq, first.limits_eq, spans] at short
        rw [fourth.limits_eq, third.limits_eq, second.limits_eq, first.limits_eq] at within
        have fits : (Utf8.encode text).length ≤ r.limits.maxComment := by omega
        refine ⟨⟨fits, clean, within⟩, ?_⟩
        rw [toBytes_ofBytes width]
        have last := passes_append.mpr ⟨r₅, fifth, sixth⟩
        have last := passes_append.mpr ⟨r₃, third, passes_append.mpr ⟨r₄, fourth, last⟩⟩
        exact passes_append.mpr ⟨r₁, first, passes_append.mpr ⟨r₂, second, last⟩⟩
      · simp [space, bind_eq_ok, throw_eq_ok] at run
    · simp [letters, bind_eq_ok, throw_eq_ok] at run
  · rintro ⟨⟨short, clean, within⟩, passes⟩
    obtain ⟨r₁, first, passes⟩ := passes_append.mp passes
    obtain ⟨r₂, second, passes⟩ := passes_append.mp passes
    obtain ⟨r₃, third, passes⟩ := passes_append.mp passes
    obtain ⟨r₄, fourth, passes⟩ := passes_append.mp passes
    obtain ⟨r₅, fifth, sixth⟩ := passes_append.mp passes
    have kept := second.limits_eq.trans first.limits_eq
    refine ⟨magic, r₁, ⟨rfl, first⟩, ?_⟩
    simp only [ne_eq, not_true_eq_false, ↓reduceIte, bind_eq_ok, field_eq_ok]
    refine ⟨[separator], r₂, ⟨rfl, second⟩, ?_⟩
    simp only [not_true_eq_false, ↓reduceIte, bind_eq_ok, comment_eq_ok, field_eq_ok,
      payloadLength_eq_ok, payload_eq_ok]
    refine ⟨rec.comment, r₃, ⟨⟨?_, clean, ?_⟩, third⟩, rec.fingerprint.toBytes, r₄,
      ⟨rec.fingerprint.length_toBytes, fourth⟩, rec.payload.length, r₅, ⟨?_, fifth⟩, rec.payload,
      r', ⟨rfl, sixth⟩, ?_⟩
    · rw [kept]
      exact window
    · rw [kept, spans]
      omega
    · rw [fourth.limits_eq, third.limits_eq, kept]
      exact within
    · rw [Fingerprint.ofBytes_toBytes]
      exact pure_eq_ok.mpr ⟨rfl, rfl⟩

theorem Cut.truncates_record (window : r.limits.maxComment + 2 < leBound 8)
    (fits : rec.refusal? r.limits = none) (cut : r.Cut rec.encode) : Truncated (record r) := by
  have spans : commentWindow r.limits = r.limits.maxComment + 2 := rfl
  obtain ⟨short, clean, within⟩ := Record.refusal?_eq_none.mp fits
  rw [Record.encode_eq] at cut
  refine cut.truncates_bind magic (fun cut => cut.truncates_field "magic")
    (fun r₁ first => field_eq_ok.mpr ⟨rfl, first⟩) fun r₁ first cut => ?_
  simp only [ne_eq, not_true_eq_false, ↓reduceIte]
  refine cut.truncates_bind [separator] (fun cut => cut.truncates_field "separator")
    (fun r₂ second => field_eq_ok.mpr ⟨rfl, second⟩) fun r₂ second cut => ?_
  simp only [not_true_eq_false, ↓reduceIte]
  have kept := second.limits_eq.trans first.limits_eq
  have narrow : commentWindow r₂.limits < leBound 8 := by
    rw [kept]
    exact window
  have span : (Utf8.encode rec.comment).length + 1 < commentWindow r₂.limits := by
    rw [kept, spans]
    omega
  refine cut.truncates_bind rec.comment (fun cut => cut.truncates_comment narrow clean span)
    (fun r₃ third => comment_eq_ok.mpr ⟨⟨narrow, clean, span⟩, third⟩) fun r₃ third cut => ?_
  have words := rec.fingerprint.length_toBytes
  refine cut.truncates_bind rec.fingerprint.toBytes ?_
    (fun r₄ fourth => field_eq_ok.mpr ⟨words, fourth⟩) fun r₄ fourth cut => ?_
  · rw [← words]
    exact fun cut => cut.truncates_field "definition hash"
  have room : rec.payload.length ≤ payloadLimit r₄.limits := by
    rw [fourth.limits_eq, third.limits_eq, second.limits_eq, first.limits_eq]
    exact within
  refine cut.truncates_bind rec.payload.length Cut.truncates_payloadLength
    (fun r₅ fifth => payloadLength_eq_ok.mpr ⟨room, fifth⟩) fun r₅ fifth cut => ?_
  exact cut.truncates_payload.bind _

def counted (r : Reader) : Reader :=
  { r with state := .atBoundary, recordsRead := r.recordsRead + 1 }

theorem body_eq_ok : body r = .ok rec r' ↔
    ∃ u, record { r with state := .midRecord } = .ok rec u ∧ r' = u.counted := by
  unfold body
  cases record { r with state := .midRecord } with
  | ok rec' u =>
      constructor
      · rintro ⟨⟩
        exact ⟨u, rfl, rfl⟩
      · rintro ⟨_, ⟨⟩, rfl⟩
        rfl
  | error e u => simp

structure Active (r : Reader) : Prop where
  unfinished : r.state ≠ .finished
  unfailed : r.state ≠ .failed

theorem active_counted (r : Reader) : r.counted.Active := by
  constructor <;> simp [counted]

theorem active_ofBytes (bs : Bytes) (limits : LoopLimits) : (ofBytes bs limits).Active := by
  constructor <;> simp [ofBytes]

theorem next_of_active (active : r.Active) : next r =
    match r.source.poll with
    | (.failed, source) => .error .io { r with source }
    | (.ended, source) => .ok none { r with source, state := .finished }
    | (.complete, _) =>
        match body r with
        | .ok rec r' => .ok (some rec) r'
        | .error e r' => .error e r' := by
  have whole : (do return some (← body) : RecordReading (Option Record)) r =
      match body r with
      | .ok rec r' => .ok (some rec) r'
      | .error e r' => .error e r' := by
    change EStateM.bind body _ r = _
    unfold EStateM.bind
    cases body r <;> rfl
  rw [next, get_bind, ← whole]
  cases state : r.state with
  | finished => exact absurd state active.unfinished
  | failed => exact absurd state active.unfailed
  | _ =>
      rcases r.source.poll with ⟨supply, source⟩
      cases supply <;> rfl

theorem next_of_cons (active : r.Active) {b : UInt8} {bs : Bytes}
    (octets : r.source.run = b :: bs) :
    r.next = match r.body with
      | .ok rec r' => .ok (some rec) r'
      | .error e r' => .error e r' := by
  have polled : r.source.poll = (.complete, r.source) := by rw [Source.poll, octets]
  rw [next_of_active active, polled]

theorem next_of_finished (finished : r.state = .finished) : r.next = .ok none r := by
  rw [next, get_bind, finished]
  rfl

theorem next_of_failed (failed : r.state = .failed) : r.next = .error .readerFailed r := by
  rw [next, get_bind, failed]
  rfl

theorem length_encode_pos (rec : Record) : 0 < rec.encode.length := by
  rw [rec.length_encode, Record.encodedLength]
  omega

theorem body_eq_ok_iff (window : r.limits.maxComment + 2 < leBound 8) :
    body r = .ok rec r' ↔ rec.refusal? r.limits = none ∧
      (∃ rest, r.source.run = rec.encode ++ rest) ∧ r' = (r.behind rec.encode.length).counted := by
  rw [body_eq_ok]
  constructor
  · rintro ⟨u, run, rfl⟩
    obtain ⟨fits, passes⟩ := (record_eq_ok (r := { r with state := .midRecord }) window).mp run
    exact ⟨fits, ⟨u.source.run, passes.run_eq⟩, by rw [passes.eq_behind]; rfl⟩
  · rintro ⟨fits, ⟨rest, start⟩, rfl⟩
    have passes := passes_behind (r := { r with state := .midRecord }) start
    exact ⟨_, (record_eq_ok (r := { r with state := .midRecord }) window).mpr ⟨fits, passes⟩, rfl⟩

theorem next_eq_some (active : r.Active) (window : r.limits.maxComment + 2 < leBound 8) :
    next r = .ok (some rec) r' ↔ rec.refusal? r.limits = none ∧
      (∃ rest, r.source.run = rec.encode ++ rest) ∧ r' = (r.behind rec.encode.length).counted := by
  rw [← body_eq_ok_iff window]
  constructor
  · rw [next_of_active active]
    rcases r.source.poll with ⟨supply, source⟩
    cases supply with
    | complete => cases run : body r <;> simp
    | _ => simp
  · intro run
    obtain ⟨_, ⟨rest, start⟩, _⟩ := (body_eq_ok_iff window).mp run
    have some : r.source.run ≠ [] := by
      have := length_encode_pos rec
      refine List.ne_nil_of_length_pos ?_
      rw [start, List.length_append]
      omega
    obtain ⟨b, bs, octets⟩ := List.exists_cons_of_ne_nil some
    rw [next_of_cons active octets, run]

end Reader

/-! ## Both directions -/

namespace Record

variable {limits : LoopLimits} {rec : Record} {s : Bytes} {n : Nat}

theorem refusal?_mono {limits' : LoopLimits} (fits : rec.refusal? limits = none)
    (comment : limits.maxComment ≤ limits'.maxComment)
    (payload : limits.maxPayload ≤ limits'.maxPayload) : rec.refusal? limits' = none := by
  obtain ⟨short, clean, within⟩ := refusal?_eq_none.mp fits
  refine refusal?_eq_none.mpr ⟨by omega, clean, ?_⟩
  rw [payloadLimit] at within ⊢
  omega

/-- No written form is the front of another, whatever limits admit the two
records. -/
theorem eq_of_encode_append {rec' : Record} {limits' : LoopLimits} {bs bs' : Bytes}
    (window : limits.maxComment + 2 < leBound 8) (window' : limits'.maxComment + 2 < leBound 8)
    (fits : rec.refusal? limits = none) (fits' : rec'.refusal? limits' = none)
    (same : rec.encode ++ bs = rec'.encode ++ bs') : rec = rec' := by
  let wide : LoopLimits := ⟨max limits.maxComment limits'.maxComment,
    max limits.maxPayload limits'.maxPayload⟩
  have active := Reader.active_ofBytes (rec.encode ++ bs) wide
  have open_window : wide.maxComment + 2 < leBound 8 := by
    change max limits.maxComment limits'.maxComment + 2 < leBound 8
    omega
  have first := (Reader.next_eq_some active open_window).mpr
    ⟨refusal?_mono fits (Nat.le_max_left _ _) (Nat.le_max_left _ _), ⟨bs, rfl⟩, rfl⟩
  have second := (Reader.next_eq_some active open_window).mpr
    ⟨refusal?_mono fits' (Nat.le_max_right _ _) (Nat.le_max_right _ _), ⟨bs', same⟩, rfl⟩
  rw [first] at second
  injection second with found
  exact Option.some.inj found

theorem decode?_eq_ok : decode? limits s = .ok (rec, n) ↔
    ∃ r, (Reader.ofBytes s limits).next = .ok (some rec) r ∧ r.offset = n := by
  unfold decode?
  cases (Reader.ofBytes s limits).next with
  | error e r => simp
  | ok found r =>
      cases found with
      | none => simp
      | some rec' =>
          constructor
          · rintro ⟨⟩
            exact ⟨r, rfl, rfl⟩
          · rintro ⟨_, ⟨⟩, rfl⟩
            rfl

/-- Decoding and writing are inverse to each other under the same limits, and
appending to a buffer does what it does on an empty one. -/
theorem decode?_iff_encodeInto (window : limits.maxComment + 2 < leBound 8) (s : Bytes)
    (rec : Record) (n : Nat) :
    (decode? limits s = .ok (rec, n) ↔
      n ≤ s.length ∧ rec.encodeInto limits [] = .ok () (s.take n)) ∧
    (decode? limits s = .ok (rec, n) → n = rec.encodedLength) ∧
    ∀ buffer, rec.encodeInto limits buffer = match rec.encodeInto limits [] with
      | .ok u out => .ok u (buffer ++ out)
      | .error e _ => .error e buffer := by
  have active := Reader.active_ofBytes s limits
  have decoded : decode? limits s = .ok (rec, n) ↔ rec.refusal? limits = none ∧
      (∃ rest, s = rec.encode ++ rest) ∧ n = rec.encode.length := by
    rw [decode?_eq_ok]
    constructor
    · rintro ⟨r, run, rfl⟩
      obtain ⟨fits, start, rfl⟩ := (Reader.next_eq_some active window).mp run
      exact ⟨fits, start, Nat.zero_add _⟩
    · rintro ⟨fits, start, rfl⟩
      exact ⟨_, (Reader.next_eq_some active window).mpr ⟨fits, start, rfl⟩, Nat.zero_add _⟩
  rw [decoded, encodeInto_eq_ok, List.nil_append]
  refine ⟨?_, ?_, fun buffer => ?_⟩
  · constructor
    · rintro ⟨fits, ⟨rest, rfl⟩, rfl⟩
      exact ⟨by simp, fits, List.take_left⟩
    · rintro ⟨within, fits, front⟩
      refine ⟨fits, ⟨s.drop n, ?_⟩, ?_⟩
      · rw [← front, List.take_append_drop]
      · rw [← front, List.length_take, Nat.min_eq_left within]
  · rintro ⟨_, _, same⟩
    rw [same, rec.length_encode]
  · rw [encodeInto_eq, encodeInto_eq]
    cases rec.refusal? limits <;> simp

def sample : Record where
  comment := "a b "
  fingerprint := ⟨1, 2, 3, 0xffffffff⟩
  payload := [7, 0]

theorem decode?_iff_encodeInto_sample :
    ({} : LoopLimits).maxComment + 2 < leBound 8 ∧
      decode? {} (sample.encode ++ [9]) = .ok (sample, 33) ∧ 33 = sample.encodedLength ∧
      sample.encodeInto {} [5] = .ok () (5 :: sample.encode) := by
  have window : ({} : LoopLimits).maxComment + 2 < leBound 8 := by decide
  have both := decode?_iff_encodeInto window (sample.encode ++ [9]) sample 33
  have written : sample.encodeInto {} [] = .ok () sample.encode := rfl
  have decoded := both.1.mpr ⟨by decide, written⟩
  refine ⟨window, decoded, both.2.1 decoded, ?_⟩
  rw [both.2.2 [5], written]
  rfl

end Record

end Chronicle.Loop
