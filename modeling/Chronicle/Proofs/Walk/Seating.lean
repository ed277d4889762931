import Chronicle.Proofs.Registry.Primed
import Chronicle.Proofs.Walk.Refilling

/-!
# References of restored values

What a walk has filled refers to bound objects only, and a reference of a known
type to one whose content has that type.  The same holds of the contents of the
objects that were bound on the way, so it holds of all of a graph once it is
restored.
-/

namespace Chronicle

open Success

/-- A value that refers, in itself or through its parts, to bound objects only,
each with a content of the type that the reference is for. -/
inductive ReadState.Seats (r : Registry) (s : ReadState) : Ty → Value → Prop
  | parts {type : Ty} {layout : Layout} {v : Value} : r.reader type = .ok layout →
      (∀ id ∈ v.references, ∃ p ∈ layout.parts v, id ∈ p.2.references) →
      (∀ p ∈ layout.parts v, Seats r s p.1 p.2) → Seats r s type v
  | shared {type : Ty} {id : Nat} {cell : Cell} : r.reader type = .ok (.shared cell.type) →
      id ∈ s.bound → s.heap[id]? = some cell → Seats r s type (.object id)
  | anyShared {type : Ty} {id : Nat} : r.reader type = .ok .anyShared →
      id ∈ s.bound → Seats r s type (.object id)

structure ReadState.Brings (r : Registry) (s t : ReadState) : Prop extends s.Onward t where
  seats : ∀ id ∈ t.bound, id ∉ s.bound →
    ∃ cell, t.heap[id]? = some cell ∧ t.Seats r cell.type cell.content

namespace ReadState

variable {r : Registry} {s t u : ReadState} {type : Ty} {v : Value} {layout : Layout}

theorem Seats.mem_bound (seats : s.Seats r type v) {id : Nat} (member : id ∈ v.references) :
    id ∈ s.bound := by
  induction seats with
  | parts _ through _ ih =>
      obtain ⟨p, inside, member⟩ := through id member
      exact ih p inside member
  | shared _ bound _ | anyShared _ bound =>
      rw [Value.references, List.mem_singleton] at member
      exact member ▸ bound

theorem Seats.mono (seats : s.Seats r type v) (bound : ∀ id ∈ s.bound, id ∈ t.bound)
    (types : ∀ (i : Nat) (cell : Cell), s.heap[i]? = some cell →
      ∃ cell', t.heap[i]? = some cell' ∧ cell'.type = cell.type) : t.Seats r type v := by
  induction seats with
  | parts found through _ ih => exact .parts found through ih
  | shared found member here =>
      obtain ⟨cell', there, same⟩ := types _ _ here
      exact .shared (same ▸ found) (bound _ member) there
  | anyShared found member => exact .anyShared found (bound _ member)

theorem Seats.onward (seats : s.Seats r type v) (onward : s.Onward t) : t.Seats r type v :=
  seats.mono (fun _ => onward.mem_bound) fun i cell here =>
    ⟨cell, onward.heap_extends i cell here, rfl⟩

theorem Seats.leaf (found : r.reader type = .ok layout) (closed : v.references = [])
    (bare : layout.parts v = []) : s.Seats r type v :=
  .parts found (by simp [closed]) (by simp [bare])

theorem Seats.record {fields : List Ty} {vs : List Value} (found : r.reader type = .ok layout)
    (shape : layout.parts (.list vs) = fields.zip vs) (full : fields.length = vs.length)
    (all : ∀ p ∈ fields.zip vs, s.Seats r p.1 p.2) : s.Seats r type (.list vs) := by
  refine .parts found (fun id member => ?_) (shape ▸ all)
  obtain ⟨w, inside, member⟩ := Value.mem_referencesAll.mp member
  obtain ⟨p, paired, rfl⟩ := Layout.exists_mem_zip full inside
  exact ⟨p, shape ▸ paired, member⟩

theorem Seats.items {item : Ty} {vs : List Value} (found : r.reader type = .ok layout)
    (shape : layout.parts (.list vs) = vs.map (item, ·)) (all : ∀ v ∈ vs, s.Seats r item v) :
    s.Seats r type (.list vs) := by
  refine .parts found (fun id member => ?_) (by simpa [shape] using all)
  obtain ⟨w, inside, member⟩ := Value.mem_referencesAll.mp member
  exact ⟨(item, w), shape ▸ List.mem_map_of_mem inside, member⟩

theorem Seats.entries {keyType valueType : Ty} {order : KeyOrder} {entries : List Value}
    (found : r.reader type = .ok (.map keyType valueType order))
    (all : ∀ e ∈ entries, ∃ k w, e = .entry k w ∧ s.Seats r keyType k ∧ s.Seats r valueType w) :
    s.Seats r type (.list entries) := by
  refine .parts found (fun id member => ?_) fun p member => ?_
  · obtain ⟨e, inside, member⟩ := Value.mem_referencesAll.mp member
    obtain ⟨k, w, rfl, _⟩ := all e inside
    rcases List.mem_append.mp member with key | value
    · exact ⟨(keyType, k), List.mem_flatMap.mpr ⟨_, inside, by simp [Layout.entryParts]⟩, key⟩
    · exact ⟨(valueType, w), List.mem_flatMap.mpr ⟨_, inside, by simp [Layout.entryParts]⟩, value⟩
  · obtain ⟨e, inside, member⟩ := List.mem_flatMap.mp member
    obtain ⟨k, w, rfl, key, value⟩ := all e inside
    simp only [Layout.entryParts, List.mem_cons, List.not_mem_nil, or_false] at member
    rcases member with rfl | rfl
    · exact key
    · exact value

theorem Brings.refl (r : Registry) (s : ReadState) : s.Brings r s :=
  ⟨.refl s, fun _ bound unbound => (unbound bound).elim⟩

theorem Brings.trans (first : s.Brings r t) (second : t.Brings r u) : s.Brings r u := by
  refine ⟨first.toOnward.trans second.toOnward, fun id bound unbound => ?_⟩
  by_cases early : id ∈ t.bound
  · obtain ⟨cell, here, seats⟩ := first.seats id early unbound
    exact ⟨cell, second.heap_extends _ _ here, seats.onward second.toOnward⟩
  · exact second.seats id bound early

theorem Brings.of_consumes {bs : Bytes} (consumed : s.Consumes bs t) : s.Brings r t := by
  obtain ⟨passes, heap_eq, bound_eq, filling_eq⟩ := consumed
  refine ⟨⟨⟨bs, passes⟩, heap_eq ▸ .refl _, ⟨[], by simp [bound_eq]⟩, filling_eq⟩,
    fun id bound unbound => ?_⟩
  exact (unbound (bound_eq ▸ bound)).elim

end ReadState

def Seating {ε : Type} (r : Registry) (type : Ty) (act : EStateM ε ReadState Value) : Prop :=
  ∀ (s t : ReadState) (v : Value), act s = .ok v t → s.Brings r t ∧ t.Seats r type v

namespace Read

variable {r : Registry} {s t : ReadState} {v : Value}

/-! ## Lists -/

theorem items_seated {item : Ty} {next : Read Value} (seating : Seating r item next) {count : Nat}
    {acc : Array Value} (run : items next count acc s = .ok v t) :
    ∃ vs, v = .list (acc.toList ++ vs) ∧ s.Brings r t ∧ ∀ w ∈ vs, t.Seats r item w := by
  induction count generalizing s acc with
  | zero =>
      obtain ⟨rfl, rfl⟩ := pure_eq_ok.mp run
      exact ⟨[], by simp, .refl r s, by simp⟩
  | succ count ih =>
      obtain ⟨w, m, first, run⟩ := bind_eq_ok.mp run
      obtain ⟨brings, seats⟩ := seating s m w (listSoFar_eq_ok.mp first)
      obtain ⟨vs, rfl, brings', all⟩ := ih run
      refine ⟨w :: vs, by simp, brings.trans brings', List.forall_mem_cons.mpr ⟨?_, all⟩⟩
      exact seats.onward brings'.toOnward

theorem ascendingEntries_seated {keyType valueType : Ty} {container : String} {order : KeyOrder}
    {nextKey nextValue : Read Value} (keys : Seating r keyType nextKey)
    (values : Seating r valueType nextValue) {count : Nat} {acc : Array Value}
    (run : ascendingEntries container order nextKey nextValue count acc s = .ok v t) :
    ∃ entries, v = .list (acc.toList ++ entries) ∧ s.Brings r t ∧
      ∀ e ∈ entries, ∃ k w, e = .entry k w ∧ t.Seats r keyType k ∧ t.Seats r valueType w := by
  induction count generalizing s acc with
  | zero =>
      obtain ⟨rfl, rfl⟩ := pure_eq_ok.mp run
      exact ⟨[], by simp, .refl r s, by simp⟩
  | succ count ih =>
      obtain ⟨k, m, first, run⟩ := bind_eq_ok.mp run
      obtain ⟨_, m', judged, run⟩ := bind_eq_ok.mp run
      obtain ⟨-, rfl⟩ := ascend_eq_ok.mp (listSoFar_eq_ok.mp judged)
      obtain ⟨w, m', second, run⟩ := bind_eq_ok.mp run
      obtain ⟨brings, key⟩ := keys s m k (listSoFar_eq_ok.mp first)
      obtain ⟨brings', value⟩ := values m m' w (listSoFar_eq_ok.mp second)
      obtain ⟨entries, rfl, brings'', all⟩ := ih run
      refine ⟨.entry k w :: entries, by simp, brings.trans (brings'.trans brings''),
        List.forall_mem_cons.mpr ⟨⟨k, w, rfl, ?_, ?_⟩, all⟩⟩
      · exact key.onward (brings'.trans brings'').toOnward
      · exact value.onward brings''.toOnward

theorem eachField_seated {walk : Walker} {types : List Ty} {olds vs : List Value}
    (all : r.FillableAll types olds)
    (each : ∀ type ∈ types, ∀ old ∈ olds, r.Fillable type old → Seating r type (walk type old))
    (run : eachField walk types olds s = .ok vs t) :
    types.length = vs.length ∧ s.Brings r t ∧ ∀ p ∈ types.zip vs, t.Seats r p.1 p.2 := by
  induction types generalizing olds vs s with
  | nil =>
      cases all
      obtain ⟨rfl, rfl⟩ := pure_eq_ok.mp run
      exact ⟨rfl, .refl r s, by simp⟩
  | cons type types ih =>
      cases all with
      | cons fillable others =>
          obtain ⟨w, m, tail, first, run', rfl⟩ := eachField_cons_eq_ok.mp run
          obtain ⟨brings, seats⟩ :=
            each type List.mem_cons_self _ List.mem_cons_self fillable s m w first
          obtain ⟨full, brings', rest⟩ := ih others (fun type' inside old' member =>
            each type' (List.mem_cons_of_mem _ inside) old' (List.mem_cons_of_mem _ member)) run'
          refine ⟨by simp [full], brings.trans brings', List.forall_mem_cons.mpr ⟨?_, rest⟩⟩
          exact seats.onward brings'.toOnward

/-! ## Objects -/

variable {c : ReadContext} {lower : Lower}

theorem object_seated {number : Nat} {content : Ty}
    (blanks : ∀ heap blank heap', c.registry.makeBlank content heap = .ok blank heap' →
      c.registry.Fillable content blank)
    (deeper : ∀ walk, lower = some walk → ∀ old, c.registry.Fillable content old →
      Seating c.registry content (walk content old))
    (run : object c lower number content s = .ok v t) :
    s.Brings c.registry t ∧ ∃ id cell, v = .object id ∧ id ∈ t.bound ∧ t.heap[id]? = some cell ∧
      cell.type = content := by
  obtain ⟨blank, heap, walk, w, m, made, _, level, inner, rfl, rfl⟩ := object_eq_ok.mp run
  have grown : s.heap.Extends heap := extends_makeBlank made
  obtain ⟨brings, seats⟩ := deeper walk level blank (blanks _ _ _ made) _ _ _ inner
  have placed : m.heap[heap.size]? = some ⟨content, blank⟩ :=
    brings.heap_extends _ _ Array.getElem?_push_size
  have filled : ∀ {type : Ty} {v : Value}, m.Seats c.registry type v →
      ReadState.Seats c.registry
        { m with heap := m.heap.fill heap.size w, filling := s.filling } type v :=
    fun seats => seats.mono (fun _ bound => bound) fun _ _ here => Heap.exists_fill here heap.size w
  have final := Heap.fill_self placed w
  have member : heap.size ∈ m.bound := brings.mem_bound Array.mem_push_self
  refine ⟨⟨.of_new grown brings.toOnward w, fun id bound unbound => ?_⟩,
    heap.size, _, rfl, member, final, rfl⟩
  by_cases same : id = heap.size
  · subst same
    exact ⟨_, final, filled seats⟩
  · obtain ⟨cell, here, seats'⟩ := brings.seats id bound fun pushed =>
      (Array.mem_push.mp pushed).elim unbound same
    exact ⟨cell, (Heap.fill_of_ne _ same w).trans here, filled seats'⟩

/-! ## References -/

section Layouts

variable {type : Ty} {old : Value} {fresh : Ty → Read Value}

theorem shared_seated {content : Ty} (found : c.registry.reader type = .ok (.shared content))
    (blanks : ∀ heap blank heap', c.registry.makeBlank content heap = .ok blank heap' →
      c.registry.Fillable content blank)
    (deeper : ∀ walk, lower = some walk → ∀ old, c.registry.Fillable content old →
      Seating c.registry content (walk content old)) :
    Seating c.registry type (shared c lower content) := by
  intro s t v run
  rcases shared_eq_ok.mp run with
    ⟨number, id, cell, _, known, here, rfl, rfl, moved⟩ | ⟨m, moved, new⟩
  · exact ⟨.of_consumes moved, .shared found (moved.bound_eq ▸ Array.mem_of_getElem? known)
      (moved.heap_eq ▸ here)⟩
  · obtain ⟨brings, id, cell, rfl, bound, here, rfl⟩ := object_seated blanks deeper new
    exact ⟨.trans (.of_consumes moved) brings, .shared found bound here⟩

theorem anyShared_seated (found : c.registry.reader type = .ok .anyShared)
    (blanks : ∀ content ∈ c.registry.tags, ∀ heap blank heap',
      c.registry.makeBlank content heap = .ok blank heap' → c.registry.Fillable content blank)
    (deeper : ∀ walk, lower = some walk → ∀ content ∈ c.registry.tags, ∀ old,
      c.registry.Fillable content old → Seating c.registry content (walk content old)) :
    Seating c.registry type (anyShared c lower) := by
  intro s t v run
  rcases anyShared_eq_ok.mp run with ⟨number, id, _, known, rfl, moved⟩ |
    ⟨tag, content, m, _, named, moved, new⟩
  · exact ⟨.of_consumes moved, .anyShared found (moved.bound_eq ▸ Array.mem_of_getElem? known)⟩
  · have listed : content ∈ c.registry.tags := List.mem_of_getElem? named
    obtain ⟨brings, id, cell, rfl, bound, _⟩ := object_seated (blanks content listed)
      (fun walk level => deeper walk level content listed) new
    exact ⟨.trans (.of_consumes moved) brings, .anyShared found bound⟩

/-! ## Layouts -/

theorem exists_consumes_of_take {α : Type} {act : Reading α} {a : α} (field : act.IsField)
    (run : take act s = .ok a t) : ∃ bs, s.Consumes bs t := by
  obtain ⟨bs, passes⟩ := field.advances s.input
  obtain ⟨input, taken, rfl⟩ := take_eq_ok.mp run
  rw [taken] at passes
  exact ⟨bs, passes, rfl, rfl, rfl⟩

theorem kept_seated {α : Type} {layout : Layout} {act : Reading α} {f : α → Value}
    (field : act.IsField) (found : c.registry.reader type = .ok layout)
    (closed : ∀ a, (f a).references = []) (bare : ∀ a, layout.parts (f a) = []) :
    Seating c.registry type (do return f (← keeping old (take act))) := by
  intro s t v run
  obtain ⟨a, m, first, run⟩ := bind_eq_ok.mp run
  obtain ⟨rfl, rfl⟩ := pure_eq_ok.mp run
  obtain ⟨bs, moved⟩ := exists_consumes_of_take field (keeping_eq_ok.mp first)
  exact ⟨.of_consumes moved, .leaf found (closed a) (bare a)⟩

theorem asset_seated {content : Ty} (found : c.registry.reader type = .ok (.asset content)) :
    Seating c.registry type (asset c content) := by
  intro s t v run
  obtain ⟨path, m, first, run⟩ := bind_eq_ok.mp run
  obtain ⟨bs, moved⟩ := exists_consumes_of_take .text first
  cases resolving : c.assets with
  | none => simp [resolving, throw_eq_ok] at run
  | some resolver =>
      cases loading : resolver.load content path with
      | none => simp [resolving, loading, throw_eq_ok] at run
      | some loaded =>
          simp only [resolving, loading] at run
          split at run
          · obtain ⟨rfl, rfl⟩ := pure_eq_ok.mp run
            exact ⟨.of_consumes moved, .leaf found rfl rfl⟩
          · exact (throw_eq_ok.mp run).elim

theorem packed_seated {format : Plain.PackedFormat}
    (found : c.registry.reader type = .ok (.packed format)) :
    Seating c.registry type (packed format) := by
  intro s t v run
  obtain ⟨blob, m, first, run⟩ := bind_eq_ok.mp run
  obtain ⟨bs, moved⟩ := exists_consumes_of_take .sized first
  cases decoded : format.decode blob with
  | error reason => simp [decoded, throw_eq_ok] at run
  | ok d =>
      rw [decoded] at run
      obtain ⟨rfl, rfl⟩ := pure_eq_ok.mp run
      exact ⟨.of_consumes moved, .leaf found rfl rfl⟩

theorem option_seated {item : Ty} {next : Read Value}
    (found : c.registry.reader type = .ok (.option item))
    (seating : Seating c.registry item next) : Seating c.registry type (do
      let octet ← take Reading.octet
      if octet = 0 then return .absent
      else if octet = 1 then return .present (← next)
      else throw (.invalidTag "option" octet)) := by
  intro s t v run
  obtain ⟨octet, m, first, run⟩ := bind_eq_ok.mp run
  obtain ⟨bs, moved⟩ := exists_consumes_of_take .octet first
  split at run
  · obtain ⟨rfl, rfl⟩ := pure_eq_ok.mp run
    exact ⟨.of_consumes moved, .leaf found rfl rfl⟩
  · split at run
    · obtain ⟨w, m', inner, run⟩ := bind_eq_ok.mp run
      obtain ⟨rfl, rfl⟩ := pure_eq_ok.mp run
      obtain ⟨brings, seats⟩ := seating m _ w inner
      refine ⟨.trans (.of_consumes moved) brings, .parts found ?_ ?_⟩ <;>
        simp [Layout.parts, Value.references, seats]
    · exact (throw_eq_ok.mp run).elim

theorem nested_seated {fields : List Ty} (found : c.registry.reader type = .ok (.nested fields))
    (fillable : c.registry.Fillable type old)
    (deeper : ∀ walk, lower = some walk → ∀ field ∈ fields, ∀ old, c.registry.Fillable field old →
      Seating c.registry field (walk field old)) :
    Seating c.registry type (byLayout c lower fresh type old (.nested fields)) := by
  intro s t v run
  obtain ⟨walk, level, run⟩ := descend_eq_ok.mp run
  obtain ⟨olds, rfl, all⟩ := fillable.fields found (.inr rfl)
  obtain ⟨vs, inner, rfl⟩ := asRecord_eq_ok.mp run
  obtain ⟨full, brings, seats⟩ :=
    eachField_seated all (fun field member old _ => deeper walk level field member old) inner
  exact ⟨brings, .record found rfl full seats⟩

theorem replaced_seated {layout : Layout} (found : c.registry.reader type = .ok layout)
    (replaces : layout.Replaces)
    (parts : ∀ item ∈ layout.components, Seating c.registry item (fresh item))
    (blanks : ∀ content, content ∈ layout.components ∨ layout = .anyShared ∧
      content ∈ c.registry.tags →
      ∀ heap blank heap', c.registry.makeBlank content heap = .ok blank heap' →
        c.registry.Fillable content blank)
    (deeper : ∀ walk, lower = some walk → ∀ content,
      content ∈ layout.components ∨ layout = .anyShared ∧ content ∈ c.registry.tags →
      ∀ old, c.registry.Fillable content old → Seating c.registry content (walk content old)) :
    Seating c.registry type (byLayout c lower fresh type old layout) := by
  cases layout with
  | nothing | record fields | nested fields | counter => exact replaces.elim
  | bool => exact kept_seated .bool found (fun _ => rfl) fun _ => rfl
  | scalar k => exact kept_seated (.scalar k) found (fun _ => rfl) fun _ => rfl
  | text => exact kept_seated .text found (fun _ => rfl) fun _ => rfl
  | octets => exact kept_seated .sized found (fun _ => rfl) fun _ => rfl
  | lowOctet => exact kept_seated .word found (fun _ => rfl) fun _ => rfl
  | refused container alternative => exact fun s t v run => (throw_eq_ok.mp run).elim
  | asset content => exact fun s t v run => asset_seated found s t v (keeping_eq_ok.mp run)
  | packed format => exact fun s t v run => packed_seated found s t v (keeping_eq_ok.mp run)
  | option item =>
      exact fun s t v run => option_seated found (parts item (List.mem_singleton_self item)) s t v
        (keeping_eq_ok.mp run)
  | shared content =>
      have leads : content ∈ (Layout.shared content).components := List.mem_singleton_self content
      exact fun s t v run => shared_seated found (blanks content (.inl leads))
        (fun walk level => deeper walk level content (.inl leads)) s t v (keeping_eq_ok.mp run)
  | anyShared =>
      exact fun s t v run => anyShared_seated found
        (fun content listed => blanks content (.inr ⟨rfl, listed⟩))
        (fun walk level content listed => deeper walk level content (.inr ⟨rfl, listed⟩)) s t v
        (keeping_eq_ok.mp run)
  | seq item =>
      intro s t v run
      obtain ⟨count, m, first, run⟩ := bind_eq_ok.mp run
      obtain ⟨bs, moved⟩ := exists_consumes_of_take .length (keeping_eq_ok.mp first)
      obtain ⟨vs, rfl, brings, all⟩ := items_seated (parts item (List.mem_singleton_self item)) run
      exact ⟨.trans (.of_consumes moved) brings, .items found rfl all⟩
  | set item order =>
      intro s t v run
      obtain ⟨count, m, first, run⟩ := bind_eq_ok.mp run
      obtain ⟨bs, moved⟩ := exists_consumes_of_take .length (keeping_eq_ok.mp first)
      obtain ⟨vs, rfl, brings, all⟩ := items_seated (parts item (List.mem_singleton_self item))
        (items_of_ascendingItems run)
      exact ⟨.trans (.of_consumes moved) brings, .items found rfl all⟩
  | map keyType valueType order =>
      intro s t v run
      obtain ⟨count, m, first, run⟩ := bind_eq_ok.mp run
      obtain ⟨bs, moved⟩ := exists_consumes_of_take .length (keeping_eq_ok.mp first)
      obtain ⟨entries, rfl, brings, all⟩ := ascendingEntries_seated
        (parts keyType (by simp [Layout.components]))
        (parts valueType (by simp [Layout.components])) run
      exact ⟨.trans (.of_consumes moved) brings, .entries found all⟩

end Layouts

/-! ## Walks -/

variable {top type : Ty} {old : Value}

theorem create_seated {walk : Walker} (primed : c.registry.Primed top)
    (leads : c.registry.Leads top type)
    (seating : ∀ blank, c.registry.Fillable type blank →
      Seating c.registry type (walk type blank)) :
    Seating c.registry type (create c walk type) := by
  intro s t v run
  obtain ⟨blank, heap, made, inner⟩ := create_eq_ok.mp run
  obtain ⟨brings, seats⟩ := seating blank (primed type leads _ _ _ made) _ t v inner
  exact ⟨.trans
    ⟨.of_heap (extends_makeBlank made), fun _ bound unbound => (unbound bound).elim⟩ brings,
    seats⟩

theorem inPlace_seated {fresh : Ty → Read Value} (primed : c.registry.Primed top)
    (parts : ∀ item, c.registry.Leads top item → Seating c.registry item (fresh item))
    (deeper : ∀ walk, lower = some walk → ∀ content, c.registry.Leads top content →
      ∀ old, c.registry.Fillable content old → Seating c.registry content (walk content old))
    (fillable : c.registry.Fillable type old) (leads : c.registry.Leads top type) :
    Seating c.registry type (inPlace c lower fresh type old) := by
  induction size : sizeOf old using Nat.strongRecOn generalizing type old with
  | ind k ih =>
      intro s t v run
      cases fillable with
      | nothing found =>
          rw [inPlace_eq_byLayout found (by simp)] at run
          obtain ⟨rfl, rfl⟩ := pure_eq_ok.mp run
          exact ⟨.refl _ _, .leaf found rfl rfl⟩
      | @record _ fields olds found all =>
          obtain ⟨vs, inner, rfl⟩ := (inPlace_record found olds).mp run
          have each : ∀ field ∈ fields, ∀ old ∈ olds, c.registry.Fillable field old →
              Seating c.registry field (inPlace c lower fresh field old) := by
            intro field member old inside fillable
            have smaller := List.sizeOf_lt_of_mem inside
            rw [Value.list.sizeOf_spec] at size
            exact ih (sizeOf old) (by omega) fillable (.component leads found member) rfl
          obtain ⟨full, brings, seats⟩ := eachField_seated all each inner
          exact ⟨brings, .record found rfl full seats⟩
      | nested found all =>
          rw [inPlace_eq_byLayout found (by simp)] at run
          exact nested_seated found (.nested found all)
            (fun walk level field member => deeper walk level field (.component leads found member))
            s t v run
      | @replaced _ layout _ found replaces =>
          have leads_of : ∀ content,
              content ∈ layout.components ∨ layout = .anyShared ∧ content ∈ c.registry.tags →
              c.registry.Leads top content := by
            rintro content (member | ⟨rfl, listed⟩)
            · exact .component leads found member
            · exact .tagged leads found listed
          have unlike : ∀ fields, layout ≠ .record fields := by
            rintro fields rfl
            exact replaces.elim
          rw [inPlace_eq_byLayout found unlike] at run
          exact replaced_seated found replaces
            (fun item member => parts item (leads_of item (.inl member)))
            (fun content way => primed content (leads_of content way))
            (fun walk level content way =>
              deeper walk level content (leads_of content way)) s t v run

theorem value_seated (primed : c.registry.Primed top)
    (deeper : ∀ walk, lower = some walk → ∀ content, c.registry.Leads top content →
      ∀ old, c.registry.Fillable content old → Seating c.registry content (walk content old))
    (octets : Nat) (fillable : c.registry.Fillable type old) (leads : c.registry.Leads top type) :
    Seating c.registry type (value c lower octets type old) := by
  induction octets generalizing type old with
  | zero =>
      rw [value_eq]
      exact inPlace_seated primed
        (fun item _ s t v run => (throw_eq_ok.mp run).elim) deeper fillable leads
  | succ octets ih =>
      rw [value_eq]
      exact inPlace_seated primed
        (fun item leads => create_seated primed leads fun blank fillable => ih fillable leads)
        deeper fillable leads

theorem valueAt_seated (primed : c.registry.Primed top) (n : Nat)
    (fillable : c.registry.Fillable type old) (leads : c.registry.Leads top type) :
    Seating c.registry type (valueAt c n type old) := by
  refine everyLevel (Q := fun walk => ∀ {type old}, c.registry.Fillable type old →
    c.registry.Leads top type → Seating c.registry type (walk type old)) ?_ n fillable leads
  intro n deeper type old fillable leads s t v run
  rw [valueAt_eq] at run
  exact value_seated primed (fun walk level _ leads _ fillable => deeper walk level fillable leads)
    s.input.remaining fillable leads s t v run

end Read

/-! ## Restored graphs -/

/-- All references of a restored graph are to objects that the walk bound, each with
a content of the type that the reference is for. -/
theorem Registry.Primed.seated {r : Registry} {o : WalkOptions} {type : Ty} {bs : Bytes}
    {root : Value} {s : ReadState} (primed : r.Primed type)
    (read : r.readGraph o type bs = .ok root s) :
    s.Seats r type root ∧
      (∀ id ∈ s.bound, ∃ cell, s.heap[id]? = some cell ∧ s.Seats r cell.type cell.content) ∧
      ∀ id, Graph.Reaches { type, root, heap := s.heap } id → id ∈ s.bound := by
  obtain ⟨brings, seats⟩ := Read.create_seated (c := r.readContext o) primed .self
    (fun blank fillable => Read.valueAt_seated primed o.limits.maxDepth fillable .self) _ s root
    read
  have contents : ∀ id ∈ s.bound,
      ∃ cell, s.heap[id]? = some cell ∧ s.Seats r cell.type cell.content :=
    fun id bound => brings.seats id bound (Array.not_mem_empty id)
  refine ⟨seats, contents, fun id reached => ?_⟩
  induction reached with
  | root member => exact seats.mem_bound member
  | step _ found member ih =>
      obtain ⟨cell, here, inner⟩ := contents _ ih
      obtain rfl := Option.some.inj (here.symm.trans found)
      exact inner.mem_bound member

end Chronicle
