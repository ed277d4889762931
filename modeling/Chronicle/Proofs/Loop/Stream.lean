import Chronicle.Proofs.Loop.Record

/-!
# Streams of records

Records follow each other without an index, so a reader finds the boundaries
by reading.  Of a stream that was cut it returns the records that were not
touched, and then tells an end between two records from an end inside one.  A
reader that came to the end of a stream has returned all there was.
-/

namespace Chronicle.Loop

open Success

/-! ## Records of a stream -/

def recordsWithin : Nat → List Record → List Record
  | _, [] => []
  | k, rec :: rest =>
      if rec.encodedLength ≤ k then rec :: recordsWithin (k - rec.encodedLength) rest else []

def IsBoundary (k : Nat) (rs : List Record) : Prop :=
  ∃ front rest, rs = front ++ rest ∧ (front.flatMap Record.encode).length = k

variable {limits : LoopLimits} {rec : Record} {rs : List Record} {k : Nat}

theorem isBoundary_zero (rs : List Record) : IsBoundary 0 rs := ⟨[], rs, rfl, rfl⟩

theorem isBoundary_cons (inside : rec.encodedLength ≤ k) :
    IsBoundary k (rec :: rs) ↔ IsBoundary (k - rec.encodedLength) rs := by
  constructor
  · rintro ⟨front, rest, all, rfl⟩
    cases front with
    | nil =>
        rw [Record.encodedLength, List.flatMap_nil, List.length_nil] at inside
        omega
    | cons first front =>
        injection all with same all
        subst same
        refine ⟨front, rest, all, ?_⟩
        rw [List.flatMap_cons, List.length_append, rec.length_encode]
        omega
  · rintro ⟨front, rest, rfl, length⟩
    refine ⟨rec :: front, rest, rfl, ?_⟩
    rw [List.flatMap_cons, List.length_append, rec.length_encode, length]
    omega

theorem not_isBoundary_cons (some : 0 < k) (outside : k < rec.encodedLength) :
    ¬ IsBoundary k (rec :: rs) := by
  rintro ⟨front, rest, all, rfl⟩
  cases front with
  | nil => simp at some
  | cons first front =>
      injection all with same all
      subst same
      rw [List.flatMap_cons, List.length_append, rec.length_encode] at outside
      omega

theorem forM_encodeInto_eq_ok {buffer out : Bytes} {u : Unit} :
    rs.forM (Record.encodeInto limits) buffer = .ok u out ↔
      (∀ rec ∈ rs, rec.refusal? limits = none) ∧ out = buffer ++ rs.flatMap Record.encode := by
  induction rs generalizing buffer with
  | nil =>
      change (EStateM.Result.ok () buffer : EStateM.Result LoopError Bytes Unit) = _ ↔ _
      simp [eq_comm]
  | cons rec rs ih =>
      change (rec.encodeInto limits >>= fun _ => rs.forM (Record.encodeInto limits)) buffer = _ ↔ _
      simp only [bind_eq_ok, Record.encodeInto_eq_ok, ih, List.forall_mem_cons, List.flatMap_cons]
      constructor
      · rintro ⟨_, _, ⟨fits, rfl⟩, others, rfl⟩
        exact ⟨⟨fits, others⟩, List.append_assoc _ _ _⟩
      · rintro ⟨⟨fits, others⟩, rfl⟩
        exact ⟨(), _, ⟨fits, rfl⟩, others, (List.append_assoc _ _ _).symm⟩

namespace Reader

variable {r r' : Reader}

/-! ## Calls in a row -/

def calls : Nat → Reader → List (Except LoopError (Option Record)) × Reader
  | 0, r => ([], r)
  | n + 1, r =>
      match r.next with
      | .ok found r' => (.ok found :: (calls n r').1, (calls n r').2)
      | .error e r' => (.error e :: (calls n r').1, (calls n r').2)

def returned? : Except LoopError (Option Record) → Option Record
  | .ok found => found
  | .error _ => none

theorem calls_of_ok {found : Option Record} (run : r.next = .ok found r') (n : Nat) :
    r.calls (n + 1) = (.ok found :: (r'.calls n).1, (r'.calls n).2) := by
  rw [calls, run]

theorem calls_of_error {e : LoopError} (run : r.next = .error e r') (n : Nat) :
    r.calls (n + 1) = (.error e :: (r'.calls n).1, (r'.calls n).2) := by
  rw [calls, run]

/-! ## Ends of a stream -/

theorem next_of_ended (active : r.Active) (plain : r.source.Plain) (ended : r.source.run = []) :
    r.next = .ok none { r with state := .finished } := by
  have polled : r.source.poll = (.ended, { r.source with run := [] }) := by
    rw [Source.poll, ended]
    exact Source.exhaust_of_plain plain
  rw [next_of_active active, polled, ← ended]

theorem next_of_cut (active : r.Active) (window : r.limits.maxComment + 2 < leBound 8)
    (fits : rec.refusal? r.limits = none) (cut : r.Cut rec.encode) (some : r.source.run ≠ []) :
    ∃ name offset r', r.next = .error (.truncated name offset) r' ∧ r'.state = .failed := by
  obtain ⟨b, bs, octets⟩ := List.exists_cons_of_ne_nil some
  obtain ⟨name, offset, r', run⟩ :=
    Cut.truncates_record (r := { r with state := .midRecord }) window fits ⟨cut.plain, cut.short⟩
  refine ⟨name, offset, { r' with state := .failed }, ?_, rfl⟩
  rw [next_of_cons active octets, body, run]

/-! ## Cut streams -/

structure Closes (k : Nat) (rs : List Record) (offset : Nat)
    (last : Except LoopError (Option Record)) (final : Reader) : Prop where
  boundary : IsBoundary k rs →
    last = .ok none ∧ final.state = .finished ∧ final.offset = offset + k
  inside : ¬ IsBoundary k rs →
    (∃ name place, last = .error (.truncated name place)) ∧ final.state = .failed

theorem closes_of_ended (active : r.Active) (plain : r.source.Plain) (ended : r.source.run = []) :
    ∃ last final, r.calls 1 = ([last], final) ∧ Closes 0 rs r.offset last final := by
  have closed := next_of_ended active plain ended
  refine ⟨.ok none, { r with state := .finished }, calls_of_ok closed 0, ?_, ?_⟩
  · exact fun _ => ⟨rfl, rfl, rfl⟩
  · exact fun other => absurd (isBoundary_zero rs) other

theorem closes_of_cut (active : r.Active) (window : r.limits.maxComment + 2 < leBound 8)
    (fits : rec.refusal? r.limits = none) (cut : r.Cut rec.encode) (some : 0 < k)
    (outside : k < rec.encodedLength) (length : r.source.run.length = k) :
    ∃ last final, r.calls 1 = ([last], final) ∧ Closes k (rec :: rs) r.offset last final := by
  have left : r.source.run ≠ [] := List.ne_nil_of_length_pos (by omega)
  obtain ⟨name, place, final, run, failed⟩ := next_of_cut active window fits cut left
  refine ⟨.error (.truncated name place), final, calls_of_error run 0, ?_, ?_⟩
  · exact fun boundary => absurd boundary (not_isBoundary_cons some outside)
  · exact fun _ => ⟨⟨name, place, rfl⟩, failed⟩

theorem calls_of_cut (window : limits.maxComment + 2 < leBound 8)
    (fits : ∀ rec ∈ rs, rec.refusal? limits = none) (same : r.limits = limits)
    (active : r.Active) (plain : r.source.Plain)
    (within : k ≤ (rs.flatMap Record.encode).length)
    (start : r.source.run = (rs.flatMap Record.encode).take k) : ∃ last final,
      r.calls ((recordsWithin k rs).length + 1) =
        ((recordsWithin k rs).map (fun rec => .ok (some rec)) ++ [last], final) ∧
      Closes k rs r.offset last final := by
  induction rs generalizing r k with
  | nil =>
      obtain rfl : k = 0 := Nat.le_zero.mp within
      exact closes_of_ended active plain start
  | cons rec rs ih =>
      rw [List.flatMap_cons] at within start
      have length := rec.length_encode
      subst same
      obtain ⟨head, others⟩ := List.forall_mem_cons.mp fits
      by_cases inside : rec.encodedLength ≤ k
      · rw [List.take_append, List.take_of_length_le (by omega), length] at start
        have first := (next_eq_some active window).mpr ⟨head, ⟨_, start⟩, rfl⟩
        have rest : (r.behind rec.encode.length).counted.source.run =
            (rs.flatMap Record.encode).take (k - rec.encodedLength) := by
          simp [counted, behind, start]
        rw [List.length_append] at within
        obtain ⟨last, final, run, closes⟩ := ih others (r := (r.behind rec.encode.length).counted)
          rfl (active_counted _) ⟨plain.later_eq, plain.fails_eq⟩ (by omega) rest
        refine ⟨last, final, ?_, ?_, ?_⟩
        · rw [recordsWithin, if_pos inside, List.length_cons, calls_of_ok first, run]
          rfl
        · intro boundary
          obtain ⟨ended, finished, offset⟩ := closes.boundary ((isBoundary_cons inside).mp boundary)
          refine ⟨ended, finished, ?_⟩
          rw [offset]
          change r.offset + rec.encode.length + _ = _
          omega
        · exact fun other => closes.inside fun boundary =>
            other ((isBoundary_cons inside).mpr boundary)
      · have part : r.source.run = rec.encode.take k := by
          rw [start, List.take_append_of_le_length (by omega)]
        rw [recordsWithin, if_neg inside]
        rcases Nat.eq_zero_or_pos k with rfl | some
        · exact closes_of_ended active plain part
        · refine closes_of_cut active window head ⟨plain, rec.encode.drop k, ?_, ?_⟩ some
            (Nat.not_le.mp inside) ?_
          · exact List.ne_nil_of_length_pos (by rw [List.length_drop]; omega)
          · rw [part, List.take_append_drop]
          · rw [part, List.length_take]
            omega

/-! ## Streams read to the end -/

/-- As long as a reader of `s` has not failed, the records it returned and what
is left are `s`, and it counted them. -/
structure Follows (limits : LoopLimits) (s : Bytes) (rs : List Record) (r : Reader) : Prop where
  limits_eq : r.limits = limits
  plain : r.source.Plain
  fits : ∀ rec ∈ rs, rec.refusal? limits = none
  split : s = rs.flatMap Record.encode ++ r.source.run
  offset_eq : r.offset = (rs.flatMap Record.encode).length
  recordsRead_eq : r.recordsRead = rs.length
  ended : r.state = .finished → r.source.run = []

variable {s : Bytes}

theorem Follows.ofBytes (limits : LoopLimits) (s : Bytes) :
    Follows limits s [] (Reader.ofBytes s limits) where
  limits_eq := rfl
  plain := ⟨rfl, rfl⟩
  fits := by simp
  split := rfl
  offset_eq := rfl
  recordsRead_eq := rfl
  ended := by simp [Reader.ofBytes]

theorem Follows.finish (follows : Follows limits s rs r) (ended : r.source.run = []) :
    Follows limits s rs { r with state := .finished } where
  limits_eq := follows.limits_eq
  plain := follows.plain
  fits := follows.fits
  split := follows.split
  offset_eq := follows.offset_eq
  recordsRead_eq := follows.recordsRead_eq
  ended := fun _ => ended

theorem Follows.count (follows : Follows limits s rs r) (fits : rec.refusal? limits = none)
    {rest : Bytes} (start : r.source.run = rec.encode ++ rest) :
    Follows limits s (rs ++ [rec]) (r.behind rec.encode.length).counted where
  limits_eq := follows.limits_eq
  plain := ⟨follows.plain.later_eq, follows.plain.fails_eq⟩
  fits := by
    intro rec' member
    rcases List.mem_append.mp member with old | new
    · exact follows.fits rec' old
    · rw [List.mem_singleton.mp new]
      exact fits
  split := by
    rw [follows.split, start]
    simp [counted, behind, start]
  offset_eq := by
    rw [List.flatMap_append, List.length_append, ← follows.offset_eq]
    simp [counted, behind]
  recordsRead_eq := by
    rw [List.length_append, ← follows.recordsRead_eq]
    rfl
  ended := by simp [counted]

theorem Follows.next_ok (window : limits.maxComment + 2 < leBound 8)
    (follows : Follows limits s rs r) {found : Option Record} (run : r.next = .ok found r') :
    Follows limits s (rs ++ found.toList) r' := by
  by_cases finished : r.state = .finished
  · rw [next_of_finished finished] at run
    cases run
    rw [Option.toList_none, List.append_nil]
    exact follows
  · by_cases failed : r.state = .failed
    · rw [next_of_failed failed] at run
      contradiction
    · have active : r.Active := ⟨finished, failed⟩
      cases found with
      | some rec =>
          have window' : r.limits.maxComment + 2 < leBound 8 := by
            rw [follows.limits_eq]
            exact window
          obtain ⟨fits, ⟨rest, start⟩, rfl⟩ := (next_eq_some active window').mp run
          rw [follows.limits_eq] at fits
          exact follows.count fits start
      | none =>
          rw [Option.toList_none, List.append_nil]
          cases octets : r.source.run with
          | nil =>
              rw [next_of_ended active follows.plain octets] at run
              cases run
              exact follows.finish octets
          | cons b bs =>
              rw [next_of_cons active octets] at run
              cases inner : r.body <;> simp [inner] at run

theorem next_error_failed (plain : r.source.Plain) {e : LoopError} (run : r.next = .error e r') :
    r'.state = .failed := by
  by_cases finished : r.state = .finished
  · rw [next_of_finished finished] at run
    contradiction
  · by_cases failed : r.state = .failed
    · rw [next_of_failed failed] at run
      cases run
      exact failed
    · have active : r.Active := ⟨finished, failed⟩
      cases octets : r.source.run with
      | nil =>
          rw [next_of_ended active plain octets] at run
          contradiction
      | cons b bs =>
          rw [next_of_cons active octets, body] at run
          cases inner : record { r with state := .midRecord } with
          | ok rec u => simp [inner] at run
          | error e' u =>
              rw [inner] at run
              cases run
              rfl

theorem calls_of_failed (failed : r.state = .failed) (n : Nat) : (r.calls n).2 = r := by
  induction n with
  | zero => rfl
  | succ n ih =>
      rw [calls_of_error (next_of_failed failed)]
      exact ih

/-- A reader that has come to the end has not failed on the way, so every call
before went on with the stream. -/
theorem Follows.calls (window : limits.maxComment + 2 < leBound 8)
    (follows : Follows limits s rs r) {n : Nat} (finished : (r.calls n).2.state = .finished) :
    Follows limits s (rs ++ (r.calls n).1.filterMap returned?) (r.calls n).2 := by
  induction n generalizing r rs with
  | zero =>
      rw [Reader.calls, List.filterMap_nil, List.append_nil]
      exact follows
  | succ n ih =>
      cases run : r.next with
      | ok found r' =>
          rw [calls_of_ok run] at finished ⊢
          have rest := ih (follows.next_ok window run) finished
          rw [List.append_assoc] at rest
          cases found with
          | none => exact rest
          | some rec => exact rest
      | error e r' =>
          have failed := next_error_failed follows.plain run
          rw [calls_of_error run] at finished
          simp only [calls_of_failed failed, failed] at finished
          contradiction

end Reader

/-- A reader of a cut stream returns the records within, and then the end of the
stream at a boundary and a truncation elsewhere.  A reader that comes to the end
of whatever octets has returned all the records that they are made of. -/
theorem stream_truncation (window : limits.maxComment + 2 < leBound 8) :
    (∀ (rs : List Record) (bs : Bytes) (k : Nat),
      rs.forM (Record.encodeInto limits) [] = .ok () bs → k ≤ bs.length → ∃ last final,
        (Reader.ofBytes (bs.take k) limits).calls ((recordsWithin k rs).length + 1) =
          ((recordsWithin k rs).map (fun rec => .ok (some rec)) ++ [last], final) ∧
        (IsBoundary k rs → last = .ok none ∧ final.state = .finished ∧ final.offset = k) ∧
        (¬ IsBoundary k rs →
          (∃ name place, last = .error (.truncated name place)) ∧ final.state = .failed)) ∧
    ∀ (s : Bytes) (n : Nat) (outcomes : List (Except LoopError (Option Record))) (final : Reader),
      (Reader.ofBytes s limits).calls n = (outcomes, final) → final.state = .finished →
        (outcomes.filterMap Reader.returned?).forM (Record.encodeInto limits) [] = .ok () s ∧
        final.recordsRead = (outcomes.filterMap Reader.returned?).length ∧
        final.offset = s.length := by
  constructor
  · intro rs bs k written within
    obtain ⟨fits, rfl⟩ := forM_encodeInto_eq_ok.mp written
    obtain ⟨last, final, run, closes⟩ := Reader.calls_of_cut (r := Reader.ofBytes _ limits) window
      fits rfl (Reader.active_ofBytes _ _) ⟨rfl, rfl⟩ within rfl
    refine ⟨last, final, run, ?_, closes.inside⟩
    intro boundary
    obtain ⟨ended, finished, offset⟩ := closes.boundary boundary
    exact ⟨ended, finished, offset.trans (Nat.zero_add k)⟩
  · intro s n outcomes final run finished
    have follows :=
      (Reader.Follows.ofBytes limits s).calls window (n := n) (by rw [run]; exact finished)
    rw [run, List.nil_append] at follows
    have all := follows.split
    rw [follows.ended finished, List.append_nil] at all
    refine ⟨forM_encodeInto_eq_ok.mpr ⟨follows.fits, all⟩, follows.recordsRead_eq, ?_⟩
    rw [follows.offset_eq, ← all]

open Record in
theorem stream_truncation_sample : ({} : LoopLimits).maxComment + 2 < leBound 8 ∧
    [sample, sample].forM (Record.encodeInto {}) [] = .ok () (sample.encode ++ sample.encode) ∧
    (∃ name place final,
      (Reader.ofBytes ((sample.encode ++ sample.encode).take 40) {}).calls 2 =
        ([.ok (some sample), .error (.truncated name place)], final) ∧ final.state = .failed) ∧
    ∃ final, (Reader.ofBytes ((sample.encode ++ sample.encode).take 33) {}).calls 2 =
        ([.ok (some sample), .ok none], final) ∧ final.state = .finished ∧ final.offset = 33 ∧
      final.recordsRead = 1 := by
  have window : ({} : LoopLimits).maxComment + 2 < leBound 8 := by decide
  have written : [sample, sample].forM (Record.encodeInto {}) [] =
      .ok () (sample.encode ++ sample.encode) := rfl
  have inside : ¬ IsBoundary 40 [sample, sample] := fun boundary =>
    not_isBoundary_cons (by decide) (by decide) ((isBoundary_cons (by decide)).mp boundary)
  have between : IsBoundary 33 [sample, sample] := ⟨[sample], [sample], rfl, rfl⟩
  have ⟨forwards, backwards⟩ := stream_truncation window
  obtain ⟨_, failed, run, _, cut⟩ := forwards _ _ 40 written (by decide)
  obtain ⟨⟨name, place, rfl⟩, stopped⟩ := cut inside
  obtain ⟨_, final, run', ended, _⟩ := forwards _ _ 33 written (by decide)
  obtain ⟨rfl, finished, offset⟩ := ended between
  have counted := (backwards _ _ _ _ run' finished).2.1
  exact ⟨window, written, ⟨name, place, failed, run, stopped⟩, final, run', finished,
    offset, counted⟩

end Chronicle.Loop
