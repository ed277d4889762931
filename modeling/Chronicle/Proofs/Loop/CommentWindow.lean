import Chronicle.Proofs.Loop.Finality

/-!
# The window of a comment

A comment and the two octets behind it may span two octets more than the limit on
comments.  Where that sum does not fit a machine word the host stops as soon as it
comes to a comment, and records that the limits admit for writing cannot be read.
-/

namespace Chronicle.Loop

open Success

namespace Reader

variable {r : Reader} {bs : Bytes}

theorem record_of_overflow (wide : leBound 8 ≤ commentWindow r.limits)
    (start : r.source.run = magic ++ ([separator] ++ bs)) :
    ∃ r', record r = .error .windowOverflow r' := by
  have first := passes_behind start
  have gap : (r.behind magic.length).source.run = [separator] ++ bs :=
    List.append_cancel_left (first.run_eq.symm.trans start)
  have second := passes_behind gap
  generalize (r.behind magic.length).behind [separator].length = u at second
  have kept : u.limits = r.limits := second.limits_eq.trans first.limits_eq
  have letters : field "magic" 4 r = .ok magic _ := field_eq_ok.mpr ⟨rfl, first⟩
  have space : field "separator" 1 _ = .ok [separator] u := field_eq_ok.mpr ⟨rfl, second⟩
  have stops : commentOctets u = .error .windowOverflow u :=
    commentOctets_of_overflow (kept ▸ wide)
  refine ⟨u, (bind_of_ok letters _).trans ?_⟩
  simp only [ne_eq, not_true_eq_false, ↓reduceIte]
  refine (bind_of_ok space _).trans ?_
  simp only [not_true_eq_false, ↓reduceIte]
  exact bind_of_error (bind_of_error stops _) _

end Reader

namespace Record

variable {limits : LoopLimits} {rec : Record}

theorem decode?_of_room (room : limits.maxComment + 2 < leBound 8)
    (fits : rec.refusal? limits = none) (rest : Bytes) :
    decode? limits (rec.encode ++ rest) = .ok (rec, rec.encode.length) :=
  decode?_eq_ok.mpr ⟨_, (Reader.next_eq_some (Reader.active_ofBytes _ limits) room).mpr
    ⟨fits, ⟨rest, rfl⟩, rfl⟩, Nat.zero_add _⟩

theorem decode?_of_overflow (wide : leBound 8 ≤ limits.maxComment + 2) (rest : Bytes) :
    decode? limits (rec.encode ++ rest) = .error .windowOverflow := by
  let r : Reader := { Reader.ofBytes (rec.encode ++ rest) limits with state := .midRecord }
  have start : ∃ bs, r.source.run = magic ++ ([separator] ++ bs) :=
    ⟨_, by rw [show r.source.run = rec.encode ++ rest from rfl, encode_eq, List.append_assoc,
      List.append_assoc]⟩
  obtain ⟨bs, start⟩ := start
  obtain ⟨r', stops⟩ := Reader.record_of_overflow (r := r) wide start
  have next := Reader.next_of_cons (Reader.active_ofBytes (rec.encode ++ rest) limits) start
  rw [Reader.body, stops] at next
  rw [decode?, next]

/-- An admitted record is read back, unless the window of its comment is too wide;
then none is. -/
theorem decode?_encode_append (fits : rec.refusal? limits = none) (rest : Bytes) :
    decode? limits (rec.encode ++ rest) =
      if limits.maxComment + 2 < leBound 8 then .ok (rec, rec.encode.length)
      else .error .windowOverflow := by
  split
  case isTrue room => exact decode?_of_room room fits rest
  case isFalse wide => exact decode?_of_overflow (Nat.not_lt.mp wide) rest

theorem overflow_of_decode? {bs : Bytes}
    (stops : decode? limits bs = .error .windowOverflow) :
    leBound 8 ≤ limits.maxComment + 2 := by
  have next := Reader.next_of_active (Reader.active_ofBytes bs limits)
  rw [decode?, next] at stops
  rcases polled : (Reader.ofBytes bs limits).source.poll with ⟨supply, source⟩
  rw [polled] at stops
  cases supply with
  | complete =>
      cases run : (Reader.ofBytes bs limits).body with
      | ok rec r' => simp [run] at stops
      | error e r' =>
          simp only [run, Except.error.injEq] at stops
          exact (Reader.inside_of_body_error run).1.2 stops
  | _ => simp at stops

end Record

end Chronicle.Loop
