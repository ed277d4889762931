import Chronicle.Proofs.Walk.Grammar

/-!
# Steps of a walk that writes

What single steps of the walk add, when they succeed, and how the walk comes
apart by the layout of the type.  The objects met and the octets added are all
that a step changes.
-/

namespace Chronicle

open Success

/-- The state after some octets were added and some objects were met. -/
def WriteState.after (s : WriteState) (bs : Bytes) (met : Array Nat) : WriteState :=
  { s with out := s.out.append bs, visited := met }

namespace WriteState

@[simp] theorem visited_after (s : WriteState) (bs : Bytes) (met : Array Nat) :
    (s.after bs met).visited = met := rfl

@[simp] theorem out_after (s : WriteState) (bs : Bytes) (met : Array Nat) :
    (s.after bs met).out = s.out.append bs := rfl

@[simp] theorem after_after (s : WriteState) (bs cs : Bytes) (met met' : Array Nat) :
    (s.after bs met).after cs met' = s.after (bs ++ cs) met' := by
  simp [after]

@[simp] theorem after_nil (s : WriteState) : s.after [] s.visited = s := by
  simp [after]

end WriteState

namespace Write

variable {c : WriteContext} {s t : WriteState}

/-! ## Single steps -/

theorem emit_eq_ok {act : Writing Unit} {u : Unit} :
    emit act s = .ok u t ↔ ∃ out, act s.out = .ok u out ∧ t = { s with out } := by
  unfold emit
  cases act s.out with
  | ok a out =>
      constructor
      · intro run
        injection run with _ same
        exact ⟨out, rfl, same.symm⟩
      · rintro ⟨out, ⟨⟩, rfl⟩
        rfl
  | error e out => simp

theorem emit_raw {bs : Bytes} {u : Unit} :
    emit (Writing.raw bs) s = .ok u t ↔ t = s.after bs s.visited := by
  simp only [emit_eq_ok, Writing.raw_eq_ok]
  constructor
  · rintro ⟨_, rfl, rfl⟩
    rfl
  · rintro rfl
    exact ⟨_, rfl, rfl⟩

theorem emit_length {n : Nat} {u : Unit} (narrow : s.out.limit ≤ maxPrefix) :
    emit (Writing.length n) s = .ok u t ↔
      n ≤ s.out.limit ∧ t = s.after (leBytes 4 n) s.visited := by
  simp only [emit_eq_ok, Writing.length_eq_ok narrow]
  constructor
  · rintro ⟨_, ⟨within, rfl⟩, rfl⟩
    exact ⟨within, rfl⟩
  · rintro ⟨within, rfl⟩
    exact ⟨_, ⟨within, rfl⟩, rfl⟩

theorem emit_sized {bs : Bytes} {u : Unit} (narrow : s.out.limit ≤ maxPrefix) :
    emit (Writing.sized bs) s = .ok u t ↔
      bs.length ≤ s.out.limit ∧ t = s.after (leBytes 4 bs.length ++ bs) s.visited := by
  simp only [emit_eq_ok, Writing.sized_eq_ok narrow]
  constructor
  · rintro ⟨_, ⟨within, rfl⟩, rfl⟩
    exact ⟨within, rfl⟩
  · rintro ⟨within, rfl⟩
    exact ⟨_, ⟨within, rfl⟩, rfl⟩

theorem marker_eq_ok {octet : UInt8} {number : Nat} {u : Unit} :
    marker octet number s = .ok u t ↔
      t = s.after (octet :: Scalar.u32.encode number) s.visited := by
  simp only [marker, emit_eq_ok, Writing.octet, Writing.scalar, bind_eq_ok, Writing.raw_eq_ok]
  constructor
  · rintro ⟨_, ⟨_, _, rfl, rfl⟩, rfl⟩
    rw [ByteWriter.append_append]
    rfl
  · rintro rfl
    refine ⟨_, ⟨(), s.out.append [octet], rfl, rfl⟩, ?_⟩
    rw [ByteWriter.append_append]
    rfl

theorem reference_known {id number : Nat} (known : s.visited.idxOf? id = some number) :
    reference id s =
      .ok false (s.after (backMarker :: Scalar.u32.encode number) s.visited) := by
  have mark : marker backMarker number s = .ok () _ := marker_eq_ok.mpr rfl
  exact bind_eq_ok.mpr ⟨s, s, rfl, by
    rw [known]
    exact bind_eq_ok.mpr ⟨(), _, mark, rfl⟩⟩

theorem reference_fresh {id : Nat} (new : s.visited.idxOf? id = none) {b : Bool} :
    reference id s = .ok b t ↔ s.visited.size < leBound 4 ∧ b = true ∧
      t = s.after (newMarker :: Scalar.u32.encode s.visited.size) (s.visited.push id) := by
  simp only [reference, bind_eq_ok, get_eq_ok]
  constructor
  · rintro ⟨_, _, ⟨rfl, rfl⟩, run⟩
    simp only [new] at run
    by_cases full : leBound 4 ≤ s.visited.size
    · simp [full, bind_eq_ok, throw_eq_ok] at run
    · simp only [full, ↓reduceIte, bind_eq_ok, set_eq_ok, marker_eq_ok, pure_eq_ok] at run
      obtain ⟨_, _, rfl, _, _, rfl, rfl, rfl⟩ := run
      exact ⟨Nat.lt_of_not_le full, rfl, rfl⟩
  · rintro ⟨room, rfl, rfl⟩
    refine ⟨s, s, ⟨rfl, rfl⟩, ?_⟩
    simp only [new, Nat.not_le.mpr room, ↓reduceIte]
    exact bind_eq_ok.mpr ⟨(), _, set_eq_ok.mpr rfl,
      bind_eq_ok.mpr ⟨(), _, marker_eq_ok.mpr rfl, rfl⟩⟩

/-! ## Parts in turn -/

def lower (c : WriteContext) : Nat → Lower
  | 0 => none
  | n + 1 => some (valueAt c n)

theorem valueAt_eq (c : WriteContext) (n : Nat) (type : Ty) (v : Value) :
    valueAt c n type v = value c (lower c n) type v := by
  cases n <;> rfl

def each (c : WriteContext) (deeper : Lower) : List (Ty × Value) → Write Unit
  | [] => return
  | (type, v) :: rest => do
      value c deeper type v
      each c deeper rest

variable {c : WriteContext} {deeper : Lower}

theorem eachItem_eq (item : Ty) (vs : List Value) :
    eachItem c deeper item vs = each c deeper (vs.map (item, ·)) := by
  induction vs with
  | nil => rfl
  | cons v rest ih => simp only [eachItem, List.map_cons, each, ih]

theorem eachEntry_eq (keyType valueType : Ty) {entries : List Value}
    (shaped : ∀ e ∈ entries, e.IsEntry) :
    eachEntry c deeper keyType valueType entries =
      each c deeper (entries.flatMap (Layout.entryParts keyType valueType)) := by
  induction entries with
  | nil => rfl
  | cons e rest ih =>
      obtain ⟨k, v, rfl⟩ := shaped e List.mem_cons_self
      have tail := ih fun e member => shaped e (List.mem_cons_of_mem _ member)
      simp only [eachEntry, List.flatMap_cons, Layout.entryParts, List.cons_append,
        List.nil_append, each, tail]

theorem fieldsInPlace_eq {fields : List Ty} {vs : List Value}
    (full : fields.length = vs.length) :
    fieldsInPlace c deeper fields vs = each c deeper (fields.zip vs) := by
  induction vs generalizing fields with
  | nil =>
      rw [List.length_nil, List.length_eq_zero_iff] at full
      subst full
      simp only [fieldsInPlace, List.zip_nil_left, each]
  | cons v rest ih =>
      cases fields with
      | nil => simp at full
      | cons type types =>
          have shorter : types.length = rest.length := by simpa using full
          have tail := ih shorter
          simp only [fieldsInPlace, List.zip_cons_cons, each, tail]

theorem eachField_eq {n : Nat} {fields : List Ty} {vs : List Value}
    (full : fields.length = vs.length) :
    eachField (valueAt c n) fields vs = each c (lower c n) (fields.zip vs) := by
  induction fields generalizing vs with
  | nil =>
      rw [List.length_nil] at full
      rw [List.eq_nil_of_length_eq_zero full.symm]
      rfl
  | cons type types ih =>
      cases vs with
      | nil => simp at full
      | cons v rest =>
          have shorter : types.length = rest.length := by simpa using full
          have tail := ih shorter
          simp only [eachField, List.zip_cons_cons, each, tail, valueAt_eq]

theorem each_cons_eq_ok {type : Ty} {v : Value} {rest : List (Ty × Value)} {s t : WriteState}
    {u : Unit} :
    each c deeper ((type, v) :: rest) s = .ok u t ↔
      ∃ a m, value c deeper type v s = .ok a m ∧ each c deeper rest m = .ok u t := by
  exact bind_eq_ok

/-! ## Unfolding by layout -/

variable {type : Ty}

theorem value_seq {item : Ty} (found : c.registry.writer type = .ok (.seq item))
    (vs : List Value) :
    value c deeper type (.list vs) =
      (do emit (Writing.length vs.length); each c deeper (vs.map (item, ·))) := by
  rw [value, found, ← eachItem_eq]
  rfl

theorem value_set {item : Ty} {order : KeyOrder}
    (found : c.registry.writer type = .ok (.set item order))
    (vs : List Value) :
    value c deeper type (.list vs) =
      (do emit (Writing.length vs.length); each c deeper (vs.map (item, ·))) := by
  rw [value, found, ← eachItem_eq]
  rfl

theorem value_map {keyType valueType : Ty} {order : KeyOrder}
    (found : c.registry.writer type = .ok (.map keyType valueType order)) {entries : List Value}
    (shaped : ∀ e ∈ entries, e.IsEntry) :
    value c deeper type (.list entries) =
      (do
        emit (Writing.length entries.length)
        each c deeper (entries.flatMap (Layout.entryParts keyType valueType))) := by
  rw [value, found, ← eachEntry_eq _ _ shaped]
  rfl

theorem value_record {fields : List Ty} (found : c.registry.writer type = .ok (.record fields))
    {vs : List Value} (full : fields.length = vs.length) :
    value c deeper type (.list vs) = each c deeper (fields.zip vs) := by
  rw [value, found, ← fieldsInPlace_eq full]
  rfl

theorem value_nested {fields : List Ty} (found : c.registry.writer type = .ok (.nested fields))
    (vs : List Value) :
    value c deeper type (.list vs) =
      descend c deeper fun walk => eachField walk fields vs := by
  rw [value, found]
  rfl

theorem value_present {item : Ty} (found : c.registry.writer type = .ok (.option item))
    (v : Value) :
    value c deeper type (.present v) =
      (do emit (Writing.octet 1); value c deeper item v) := by
  rw [value, found]
  rfl

def Atomic : Value → Prop
  | .list _ | .present _ => False
  | _ => True

theorem value_of_atomic {layout : Layout} {v : Value} (atomic : Atomic v)
    (found : c.registry.writer type = .ok layout) :
    value c deeper type v = whole c deeper type layout v := by
  have apart : ∀ vs, v ≠ .list vs := by
    rintro vs rfl
    exact atomic
  have bare : ∀ inner, v ≠ .present inner := by
    rintro inner rfl
    exact atomic
  rw [value_eq_whole c deeper type apart bare, found]
  rfl

theorem value_of_encodes {o : WalkOptions} {layout : Layout} {v : Value} {bs : Bytes}
    (found : c.registry.writer type = .ok layout) (encodes : layout.Encodes o v bs) :
    value c deeper type v = whole c deeper type layout v := by
  cases encodes with
  | nothing v =>
      cases v with
      | list vs =>
          rw [value, found]
          rfl
      | present inner =>
          rw [value, found]
          rfl
      | _ => exact value_of_atomic trivial found
  | _ => exact value_of_atomic trivial found

/-! ## References -/

variable {layout : Layout} {id : Nat} {cell : Cell} {tag : Bytes}

theorem unborrowed_eq_ok {content : Ty} {u : Unit} :
    unborrowed c id content s = .ok u t ↔ id ∉ c.borrowed ∧ s = t := by
  unfold unborrowed
  by_cases held : id ∈ c.borrowed
  · simp [held, throw_eq_ok]
  · simp [held, pure_eq_ok]

theorem descend_eq_ok {act : (Ty → Value → Write Unit) → Write Unit} {u : Unit} :
    descend c deeper act s = .ok u t ↔ ∃ walk, deeper = some walk ∧ act walk s = .ok u t := by
  cases deeper with
  | none => simp [descend, throw_eq_ok]
  | some walk => simp [descend]

theorem shared_eq_ok {content : Ty} {u : Unit} (run : shared c deeper content id s = .ok u t) :
    ∃ cell, c.heap[id]? = some cell ∧ cell.type = content := by
  unfold shared at run
  cases found : c.heap[id]? with
  | none => simp [found, throw_eq_ok] at run
  | some cell =>
      by_cases same : cell.type = content
      · exact ⟨cell, rfl, same⟩
      · simp [found, same, throw_eq_ok] at run

theorem anyShared_eq_ok {u : Unit} (run : anyShared c deeper id s = .ok u t) :
    ∃ cell tag, c.heap[id]? = some cell ∧ c.registry.tag? cell.type = some tag := by
  unfold anyShared at run
  cases found : c.heap[id]? with
  | none => simp [found, throw_eq_ok] at run
  | some cell =>
      cases tagged : c.registry.tag? cell.type with
      | none => simp [found, tagged, throw_eq_ok] at run
      | some tag => exact ⟨cell, tag, rfl, tagged⟩

theorem whole_known {number : Nat} (found : c.heap[id]? = some cell)
    (refers : layout.Refers c.registry cell.type tag)
    (known : s.visited.idxOf? id = some number) :
    whole c deeper type layout (.object id) s =
      .ok () (s.after (backMarker :: Scalar.u32.encode number) s.visited) := by
  have step := reference_known known
  cases refers with
  | shared content =>
      simp only [whole, shared, found, ↓reduceIte]
      rw [bind_of_ok step]
      rfl
  | anyShared tagged =>
      simp only [whole, anyShared, found, tagged]
      rw [bind_of_ok step]
      rfl

/-- Behind the marker and the tag of an object not met before, its content is
walked one level deeper. -/
theorem whole_fresh_eq (found : c.heap[id]? = some cell)
    (refers : layout.Refers c.registry cell.type tag) (new : s.visited.idxOf? id = none)
    (room : s.visited.size < leBound 4) (free : id ∉ c.borrowed) :
    whole c deeper type layout (.object id) s =
      descend c deeper (fun walk => walk cell.type cell.content)
        (s.after (newMarker :: Scalar.u32.encode s.visited.size ++ tag) (s.visited.push id)) := by
  have met := (reference_fresh new (b := true)).mpr ⟨room, rfl, rfl⟩
  have held : ∀ (t : WriteState) (content : Ty), unborrowed c id content t = .ok () t :=
    fun _ _ => unborrowed_eq_ok.mpr ⟨free, rfl⟩
  cases refers with
  | shared content =>
      simp only [whole, shared, found, ↓reduceIte]
      rw [bind_of_ok met]
      simp only [↓reduceIte]
      rw [bind_of_ok (held _ _), List.append_nil]
  | @anyShared _ number tagged =>
      have tag : ∀ t : WriteState, emit (Writing.scalar .u32 number) t =
          .ok () (t.after (Scalar.u32.encode number) t.visited) := fun _ => emit_raw.mpr rfl
      simp only [whole, anyShared, found, tagged]
      rw [bind_of_ok met]
      simp only [↓reduceIte]
      rw [bind_of_ok (tag _), WriteState.after_after]
      cases deeper with
      | none => rfl
      | some walk => exact bind_of_ok (held _ _) _

theorem whole_fresh {u : Unit} (found : c.heap[id]? = some cell)
    (refers : layout.Refers c.registry cell.type tag) (new : s.visited.idxOf? id = none) :
    whole c deeper type layout (.object id) s = .ok u t ↔
      s.visited.size < leBound 4 ∧ id ∉ c.borrowed ∧ ∃ walk, deeper = some walk ∧
        walk cell.type cell.content
          (s.after (newMarker :: Scalar.u32.encode s.visited.size ++ tag)
            (s.visited.push id)) = .ok u t := by
  constructor
  · intro run
    have admitted : s.visited.size < leBound 4 ∧ id ∉ c.borrowed := by
      cases refers with
      | shared content =>
          simp only [whole, shared, found, ↓reduceIte, bind_eq_ok, reference_fresh new] at run
          obtain ⟨_, _, ⟨room, rfl, rfl⟩, run⟩ := run
          simp only [↓reduceIte, bind_eq_ok, unborrowed_eq_ok] at run
          obtain ⟨_, _, ⟨free, _⟩, _⟩ := run
          exact ⟨room, free⟩
      | anyShared tagged =>
          simp only [whole, anyShared, found, tagged, bind_eq_ok, reference_fresh new] at run
          obtain ⟨_, _, ⟨room, rfl, rfl⟩, run⟩ := run
          simp only [↓reduceIte, bind_eq_ok, descend_eq_ok, unborrowed_eq_ok] at run
          obtain ⟨_, _, _, _, _, _, _, ⟨free, _⟩, _⟩ := run
          exact ⟨room, free⟩
    rw [whole_fresh_eq found refers new admitted.1 admitted.2, descend_eq_ok] at run
    exact ⟨admitted.1, admitted.2, run⟩
  · rintro ⟨room, free, run⟩
    rw [whole_fresh_eq found refers new room free]
    exact descend_eq_ok.mpr run

end Write

end Chronicle
