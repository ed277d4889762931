import Chronicle.Proofs.Heap
import Chronicle.Proofs.Walk.Grammar
import Chronicle.Proofs.Walk.ReadSteps
import Mathlib.Data.List.Chain

/-!
# Reading accepts only the written form

Whatever octets a walk that reads accepts are the written form of the value it
fills, provided that every type on the way is read by a layout that leaves no
choice.  An object is bound before its content is read, so what is accepted is
its written form only in the heap in which all objects have their contents in
the end.  The statements below therefore speak about every such heap.

A set or a map is a list of its items here, so it is part of the claim that the
list is in the order in which its items would be walked.
-/

namespace Chronicle

open Success

/-! ## Types that leave no choice -/

namespace Layout

def Canonical : Layout → Prop
  | .packed _ | .asset _ | .counter | .lowOctet => False
  | _ => True

def components : Layout → List Ty
  | .seq item | .set item _ | .option item => [item]
  | .map keyType valueType _ => [keyType, valueType]
  | .record fields | .nested fields => fields
  | .shared content => [content]
  | _ => []

def Ordered : Layout → Value → Prop
  | .set _ order, .list items => (∀ v ∈ items, v.references = []) →
      items.IsChain fun v w => order.Less v.orderingKey w
  | .map _ _ order, .list entries => (∀ e ∈ entries, e.orderingKey.references = []) →
      entries.IsChain fun e e' => order.Less e.orderingKey e'.orderingKey
  | _, _ => True

end Layout

namespace Registry

/-- All sets and maps in a value are in order, those behind its references left
aside. -/
inductive InOrder (r : Registry) : Ty → Value → Prop
  | intro {type : Ty} {v : Value} {layout : Layout} : r.writer type = .ok layout →
      layout.Ordered v → (∀ p ∈ layout.parts v, InOrder r p.1 p.2) → InOrder r type v

theorem InOrder.of_encodes {r : Registry} {o : WalkOptions} {type : Ty} {layout : Layout}
    {v : Value} {bs : Bytes} (written : r.writer type = .ok layout)
    (encodes : layout.Encodes o v bs) : r.InOrder type v := by
  refine .intro written ?_ ?_
  · cases encodes <;> simp [Layout.Ordered]
  · cases encodes <;> simp [Layout.parts]

theorem InOrder.of_refers {r : Registry} {type content : Ty} {layout : Layout} {tag : Bytes}
    (written : r.writer type = .ok layout) (refers : layout.Refers r content tag) (id : Nat) :
    r.InOrder type (.object id) := by
  refine .intro written ?_ ?_
  · cases refers <;> simp [Layout.Ordered]
  · cases refers <;> simp [Layout.parts]

inductive Leads (r : Registry) (type : Ty) : Ty → Prop
  | self : Leads r type type
  | component {s u : Ty} {layout : Layout} : Leads r type s → r.reader s = .ok layout →
      u ∈ layout.components → Leads r type u
  | tagged {s u : Ty} : Leads r type s → r.reader s = .ok .anyShared → u ∈ r.tags →
      Leads r type u

theorem Leads.trans {r : Registry} {type s u : Ty} (first : r.Leads type s)
    (second : r.Leads s u) : r.Leads type u := by
  induction second with
  | self => exact first
  | component _ found member ih => exact .component ih found member
  | tagged _ found member ih => exact .tagged ih found member

/-- One canonical layout writes and reads a type, and what its references lead
to has a tag. -/
structure Uniform (r : Registry) (type : Ty) (layout : Layout) : Prop where
  writer_eq : r.writer type = .ok layout
  reader_eq : r.reader type = .ok layout
  canonical : layout.Canonical
  tagged : ∀ content, layout = .shared content → content ∈ r.tags

def Canonical (r : Registry) (type : Ty) : Prop :=
  ∀ s, r.Leads type s → ∃ layout, r.Uniform s layout

namespace Canonical

variable {r : Registry} {type : Ty}

theorem component (canonical : r.Canonical type) {layout : Layout} {u : Ty}
    (found : r.reader type = .ok layout) (member : u ∈ layout.components) : r.Canonical u :=
  fun s leads => canonical s (.trans (.component .self found member) leads)

theorem tagged (canonical : r.Canonical type) {u : Ty} (found : r.reader type = .ok .anyShared)
    (member : u ∈ r.tags) : r.Canonical u :=
  fun s leads => canonical s (.trans (.tagged .self found member) leads)

end Canonical

end Registry

/-! ## What is accepted -/

variable {r : Registry} {o : WalkOptions}

/-- The reader is under the limit of the options, the objects bound are apart and
have tagged types, and there is a number for each octet that is left. -/
structure ReadState.Sound (r : Registry) (o : WalkOptions) (s : ReadState) : Prop where
  limit_eq : s.input.limit = o.limits.maxSequence
  nodup : s.bound.toList.Nodup
  held : ∀ id ∈ s.bound, ∃ cell, s.heap[id]? = some cell ∧ cell.type ∈ r.tags
  few : s.bound.size + s.input.remaining < leBound 4

structure Accepted (r : Registry) (o : WalkOptions) (s : ReadState) (bs : Bytes)
    (t : ReadState) : Prop where
  passes : s.input.Passes bs t.input
  heap_extends : s.heap.Extends t.heap
  grows : ∀ id ∈ s.bound, id ∈ t.bound
  sound : t.Sound r o

/-- The objects bound between two states have come to rest, and no object has
changed its type. -/
structure Settled (s t : ReadState) (h : Heap) : Prop where
  content : ∀ id ∈ t.bound, id ∉ s.bound → h[id]? = t.heap[id]?
  type : ∀ id ∈ t.bound, h[id]?.map Cell.type = t.heap[id]?.map Cell.type

def Derives (r : Registry) (o : WalkOptions) (s t : ReadState)
    (form : Heap → Bytes → Prop) : Prop :=
  ∃ bs, Accepted r o s bs t ∧ ∀ h, Settled s t h → form h bs

def Arranged (r : Registry) (h : Heap) (met met' : Array Nat) : Prop :=
  ∀ id ∈ met', id ∉ met → ∃ cell, h[id]? = some cell ∧ r.InOrder cell.type cell.content

structure WellWritten (r : Registry) (o : WalkOptions) (h : Heap) (n : Nat) (type : Ty) (v : Value)
    (met : Array Nat) (bs : Bytes) (met' : Array Nat) : Prop where
  written : Written r o h n type v met bs met'
  ordered : r.InOrder type v
  arranged : Arranged r h met met'

structure WellWrittenAll (r : Registry) (o : WalkOptions) (h : Heap) (n : Nat)
    (ps : List (Ty × Value)) (met : Array Nat) (bs : Bytes) (met' : Array Nat) : Prop where
  written : WrittenAll r o h n ps met bs met'
  ordered : ∀ p ∈ ps, r.InOrder p.1 p.2
  arranged : Arranged r h met met'

def Accepts (r : Registry) (o : WalkOptions) (n : Nat) (s : ReadState) (type : Ty) (v : Value)
    (t : ReadState) : Prop :=
  Derives r o s t fun h bs => WellWritten r o h n type v s.bound bs t.bound

def AcceptsAll (r : Registry) (o : WalkOptions) (n : Nat) (s : ReadState)
    (ps : List (Ty × Value)) (t : ReadState) : Prop :=
  Derives r o s t fun h bs => WellWrittenAll r o h n ps s.bound bs t.bound

variable {s t u : ReadState} {bs cs : Bytes} {h : Heap} {form form' form'' : Heap → Bytes → Prop}

theorem Settled.left (settled : Settled s u h) (first : Accepted r o s bs t)
    (second : Accepted r o t cs u) : Settled s t h := by
  have kept : ∀ id ∈ t.bound, u.heap[id]? = t.heap[id]? := by
    intro id member
    obtain ⟨cell, found, _⟩ := first.sound.held id member
    rw [found]
    exact second.heap_extends _ _ found
  constructor
  · intro id member new
    rw [settled.content id (second.grows id member) new, kept id member]
  · intro id member
    rw [settled.type id (second.grows id member), kept id member]

theorem Settled.right (settled : Settled s u h) (first : Accepted r o s bs t) : Settled t u h where
  content := fun id member new => settled.content id member fun old => new (first.grows id old)
  type := settled.type

namespace Derives

theorem append (first : Derives r o s t form) (second : Derives r o t u form')
    (join : ∀ h bs cs, form h bs → form' h cs → form'' h (bs ++ cs)) : Derives r o s u form'' := by
  obtain ⟨bs, accepted, left⟩ := first
  obtain ⟨cs, accepted', right⟩ := second
  refine ⟨bs ++ cs, ⟨accepted.passes.trans accepted'.passes,
    accepted.heap_extends.trans accepted'.heap_extends,
    fun id member => accepted'.grows id (accepted.grows id member), accepted'.sound⟩, ?_⟩
  intro h settled
  exact join h bs cs (left h (settled.left accepted accepted'))
    (right h (settled.right accepted))

theorem sound (derives : Derives r o s t form) : t.Sound r o := by
  obtain ⟨_, accepted, _⟩ := derives
  exact accepted.sound

theorem mono (derives : Derives r o s t form) (weaker : ∀ h bs, form h bs → form' h bs) :
    Derives r o s t form' := by
  obtain ⟨bs, accepted, all⟩ := derives
  exact ⟨bs, accepted, fun h settled => weaker h bs (all h settled)⟩

theorem of_consumes (sound : s.Sound r o) (moved : s.Consumes bs t) :
    Derives r o s t fun _ cs => cs = bs := by
  refine ⟨bs, ⟨moved.passes, ?_, ?_, ?_, ?_, ?_, ?_⟩, fun _ _ => rfl⟩
  · rw [moved.heap_eq]
    exact .refl _
  · rw [moved.bound_eq]
    exact fun _ member => member
  · rw [moved.passes.limit_eq]
    exact sound.limit_eq
  · rw [moved.bound_eq]
    exact sound.nodup
  · rw [moved.bound_eq, moved.heap_eq]
    exact sound.held
  · have taken := moved.passes.length_eq
    have few := sound.few
    rw [ByteReader.remaining] at few ⊢
    rw [moved.bound_eq]
    omega

end Derives

theorem Arranged.refl (r : Registry) (h : Heap) (met : Array Nat) : Arranged r h met met :=
  fun _ member new => absurd member new

theorem Arranged.trans {met met' met'' : Array Nat} (first : Arranged r h met met')
    (second : Arranged r h met' met'') : Arranged r h met met'' := by
  intro id member new
  by_cases early : id ∈ met'
  · exact first id early new
  · exact second id member early

theorem AcceptsAll.nil {n : Nat} (sound : s.Sound r o) : AcceptsAll r o n s [] s := by
  refine (Derives.of_consumes sound (ReadState.consumes_nil.mpr rfl)).mono ?_
  rintro h _ rfl
  exact ⟨.nil, by simp, .refl r h _⟩

theorem Accepts.cons {n : Nat} {type : Ty} {v : Value} {ps : List (Ty × Value)}
    (first : Accepts r o n s type v t) (rest : AcceptsAll r o n t ps u) :
    AcceptsAll r o n s ((type, v) :: ps) u :=
  first.append rest fun _ _ _ form all =>
    ⟨.cons form.written all.written, List.forall_mem_cons.mpr ⟨form.ordered, all.ordered⟩,
      form.arranged.trans all.arranged⟩

def Understands {ε : Type} (r : Registry) (o : WalkOptions) (n : Nat) (type : Ty)
    (act : EStateM ε ReadState Value) : Prop :=
  ∀ (s t : ReadState) (v : Value), s.Sound r o → act s = .ok v t → Accepts r o n s type v t

namespace Read

variable {n : Nat} {next : Read Value}

/-! ## Lists -/

theorem items_understood {item : Ty} (understood : Understands r o n item next) {count : Nat}
    {acc : Array Value} {v : Value} (sound : s.Sound r o)
    (run : items next count acc s = .ok v t) :
    ∃ vs, vs.length = count ∧ v = .list (acc.toList ++ vs) ∧
      AcceptsAll r o n s (vs.map (item, ·)) t := by
  induction count generalizing s acc with
  | zero =>
      obtain ⟨rfl, rfl⟩ := pure_eq_ok.mp run
      exact ⟨[], rfl, by rw [List.append_nil], .nil sound⟩
  | succ count ih =>
      obtain ⟨w, m, first, run⟩ := bind_eq_ok.mp run
      have derived := understood s m w sound (listSoFar_eq_ok.mp first)
      obtain ⟨vs, length, rfl, rest⟩ := ih derived.sound run
      refine ⟨w :: vs, by rw [List.length_cons, length], by simp, ?_⟩
      exact derived.cons rest

theorem items_of_ascendingItems {container : String} {order : KeyOrder} {count : Nat}
    {acc : Array Value} {v : Value}
    (run : ascendingItems container order next count acc s = .ok v t) :
    items next count acc s = .ok v t := by
  induction count generalizing s acc with
  | zero => exact run
  | succ count ih =>
      obtain ⟨w, m, first, run⟩ := bind_eq_ok.mp run
      obtain ⟨_, m', judged, run⟩ := bind_eq_ok.mp run
      obtain ⟨-, rfl⟩ := ascend_eq_ok.mp (listSoFar_eq_ok.mp judged)
      exact bind_eq_ok.mpr ⟨w, m, first, ih run⟩

theorem isChain_push {acc : Array Value} {e : Value} {R : Value → Value → Prop}
    (sorted : acc.toList.IsChain R) (above : ∀ last ∈ acc.back?, R last e) :
    (acc.push e).toList.IsChain R := by
  rw [Array.toList_push, List.isChain_append]
  refine ⟨sorted, List.isChain_singleton e, ?_⟩
  intro last found next same
  rw [Array.getLast?_toList] at found
  obtain rfl : e = next := by simpa using same
  exact above last found

theorem references_orderingKey {v : Value} (closed : v.references = []) :
    v.orderingKey.references = [] := by
  cases v <;> simp_all [Value.references, Value.orderingKey]

theorem less_of_ascend {container : String} {order : KeyOrder} {acc : Array Value} {key : Value}
    {u : Unit} (judged : listSoFar acc (ascend container order acc key) s = .ok u t)
    (closed : key.references = []) (inside : ∀ e ∈ acc.toList, e.orderingKey.references = []) :
    ∀ last ∈ acc.back?, order.Less last.orderingKey key := by
  intro last found
  have less := (ascend_eq_ok.mp (listSoFar_eq_ok.mp judged)).1 last found
  rw [← Array.getLast?_toList] at found
  rwa [order.closed (inside last (List.mem_of_getLast? found)) closed] at less

theorem ascendingItems_ordered {item : Ty} {container : String} {order : KeyOrder} {count : Nat}
    {acc : Array Value} {v : Value} (sorted : (Layout.set item order).Ordered (.list acc.toList))
    (run : ascendingItems container order next count acc s = .ok v t) :
    (Layout.set item order).Ordered v := by
  induction count generalizing s acc with
  | zero =>
      obtain ⟨rfl, -⟩ := pure_eq_ok.mp run
      exact sorted
  | succ count ih =>
      obtain ⟨w, m, first, run⟩ := bind_eq_ok.mp run
      obtain ⟨_, m', judged, run⟩ := bind_eq_ok.mp run
      refine ih (fun closed => ?_) run
      have before : ∀ e ∈ acc.toList, e.references = [] := fun e member =>
        closed e (by simp [member])
      have above := less_of_ascend judged (closed w (by simp)) fun e member =>
        references_orderingKey (before e member)
      exact isChain_push (sorted before) above

theorem ascendingEntries_ordered {keyType valueType : Ty} {container : String} {order : KeyOrder}
    {nextKey nextValue : Read Value} {count : Nat} {acc : Array Value} {v : Value}
    (sorted : (Layout.map keyType valueType order).Ordered (.list acc.toList))
    (run : ascendingEntries container order nextKey nextValue count acc s = .ok v t) :
    (Layout.map keyType valueType order).Ordered v := by
  induction count generalizing s acc with
  | zero =>
      obtain ⟨rfl, -⟩ := pure_eq_ok.mp run
      exact sorted
  | succ count ih =>
      obtain ⟨k, m, first, run⟩ := bind_eq_ok.mp run
      obtain ⟨_, m', judged, run⟩ := bind_eq_ok.mp run
      obtain ⟨w, m'', second, run⟩ := bind_eq_ok.mp run
      refine ih (fun closed => ?_) run
      have before : ∀ e ∈ acc.toList, e.orderingKey.references = [] := fun e member =>
        closed e (by simp [member])
      have above : ∀ last ∈ acc.back?,
          order.Less last.orderingKey (Value.entry k w).orderingKey :=
        less_of_ascend judged (closed (.entry k w) (by simp)) before
      exact isChain_push (sorted before) above

theorem ascendingEntries_understood {keyType valueType : Ty} {container : String}
    {order : KeyOrder} {nextKey nextValue : Read Value}
    (keys : Understands r o n keyType nextKey) (values : Understands r o n valueType nextValue)
    {count : Nat} {acc : Array Value} {v : Value} (sound : s.Sound r o)
    (run : ascendingEntries container order nextKey nextValue count acc s = .ok v t) :
    ∃ entries, entries.length = count ∧ v = .list (acc.toList ++ entries) ∧
      (∀ e ∈ entries, e.IsEntry) ∧
      AcceptsAll r o n s (entries.flatMap (Layout.entryParts keyType valueType)) t := by
  induction count generalizing s acc with
  | zero =>
      obtain ⟨rfl, rfl⟩ := pure_eq_ok.mp run
      exact ⟨[], rfl, by rw [List.append_nil], nofun, .nil sound⟩
  | succ count ih =>
      obtain ⟨k, m, first, run⟩ := bind_eq_ok.mp run
      obtain ⟨_, m', judged, run⟩ := bind_eq_ok.mp run
      obtain ⟨-, rfl⟩ := ascend_eq_ok.mp (listSoFar_eq_ok.mp judged)
      obtain ⟨w, m', second, run⟩ := bind_eq_ok.mp run
      have derived := keys s m k sound (listSoFar_eq_ok.mp first)
      have derived' := values m m' w derived.sound (listSoFar_eq_ok.mp second)
      obtain ⟨entries, length, rfl, shaped, rest⟩ := ih derived'.sound run
      refine ⟨.entry k w :: entries, by rw [List.length_cons, length], by simp, ?_, ?_⟩
      · intro e member
        rcases List.mem_cons.mp member with rfl | member
        · exact ⟨k, w, rfl⟩
        · exact shaped e member
      · exact derived.cons (derived'.cons rest)

/-! ## Fields -/

theorem eachField_understood {walk : Walker} {types : List Ty} {olds vs : List Value}
    (understood : ∀ type ∈ types, ∀ old ∈ olds, Understands r o n type (walk type old))
    (sound : s.Sound r o) (run : eachField walk types olds s = .ok vs t) :
    types.length = vs.length ∧
      AcceptsAll r o n s (types.zip vs) t := by
  induction types generalizing olds vs s with
  | nil =>
      cases olds with
      | nil =>
          obtain ⟨rfl, rfl⟩ := pure_eq_ok.mp run
          exact ⟨rfl, .nil sound⟩
      | cons old rest => exact (throw_eq_ok.mp run).elim
  | cons type types ih =>
      cases olds with
      | nil => exact (throw_eq_ok.mp run).elim
      | cons old rest =>
          obtain ⟨w, m, tail, first, run', rfl⟩ := eachField_cons_eq_ok.mp run
          have derived :=
            understood type List.mem_cons_self old List.mem_cons_self s m w sound first
          obtain ⟨full, others⟩ := ih (fun type' inside old' member =>
            understood type' (List.mem_cons_of_mem _ inside) old' (List.mem_cons_of_mem _ member))
            derived.sound run'
          refine ⟨by rw [List.length_cons, List.length_cons, full], ?_⟩
          exact derived.cons others

/-! ## Objects -/

theorem extends_makeBlank {type : Ty} {heap heap' : Heap} {blank : Value}
    (made : r.makeBlank type heap = .ok blank heap') : heap.Extends heap' := by
  rw [Registry.makeBlank.eq_def] at made
  obtain ⟨way, m, found, made'⟩ := bind_eq_ok.mp made
  obtain ⟨_, rfl⟩ := liftResult_eq_ok.mp found
  cases way with
  | template t =>
      cases made'
      exact t.extends_make heap
  | refused container alternative => exact (throw_eq_ok.mp made').elim
  | placeholder =>
      cases type with
      | shared content =>
          obtain ⟨inner, m, first, finish⟩ := bind_eq_ok.mp made'
          cases finish
          exact (extends_makeBlank first).trans (Heap.extends_allocate m content inner)
      | _ => exact (throw_eq_ok.mp made').elim
termination_by type

theorem sound_push {heap : Heap} {content : Ty} (blank : Value) (sound : s.Sound r o)
    (grown : s.heap.Extends heap) (tagged : content ∈ r.tags)
    (room : s.bound.size + s.input.remaining + 1 < leBound 4) :
    heap.size ∉ s.bound ∧ ReadState.Sound r o
      { s with
        heap := heap.push ⟨content, blank⟩
        bound := s.bound.push heap.size
        filling := heap.size :: s.filling } := by
  have new : heap.size ∉ s.bound := by
    intro member
    obtain ⟨cell, found, _⟩ := sound.held _ member
    exact Nat.lt_irrefl _ (Array.getElem?_eq_some_iff.mp (grown _ _ found)).1
  refine ⟨new, sound.limit_eq, ?_, ?_, ?_⟩
  · rw [Array.toList_push]
    refine List.nodup_append.mpr ⟨sound.nodup, by simp, ?_⟩
    rintro a inside b single rfl
    rw [List.mem_singleton.mp single] at inside
    exact new (Array.mem_toList_iff.mp inside)
  · intro id member
    rcases Array.mem_push.mp member with old | rfl
    · obtain ⟨cell, found, listed⟩ := sound.held id old
      exact ⟨cell, heap.extends_allocate content blank _ _ (grown _ _ found), listed⟩
    · exact ⟨⟨content, blank⟩, Array.getElem?_push_size, tagged⟩
  · change (s.bound.push heap.size).size + s.input.remaining < leBound 4
    rw [Array.size_push]
    omega

theorem sound_fill (sound : s.Sound r o) (id : Nat) (v : Value) (filling : List Nat) :
    ReadState.Sound r o { s with heap := s.heap.fill id v, filling } where
  limit_eq := sound.limit_eq
  nodup := sound.nodup
  few := sound.few
  held := by
    intro k member
    obtain ⟨cell, found, listed⟩ := sound.held k member
    obtain ⟨cell', found', same⟩ := Heap.exists_fill found id v
    exact ⟨cell', found', by rw [same]; exact listed⟩

/-- A new object takes its number before its content is read, and holds it in
the end. -/
theorem object_understood {number : Nat} {content : Ty} {v : Value}
    (deeper : ∀ m, n = m + 1 → ∀ old,
      Understands r o m content (valueAt (r.readContext o) m content old))
    (tagged : content ∈ r.tags) (sound : s.Sound r o)
    (room : s.bound.size + s.input.remaining + 1 < leBound 4)
    (run : object (r.readContext o) (lowerAt (r.readContext o) n) number content s = .ok v t) :
    ∃ m id, n = m + 1 ∧ v = .object id ∧ id ∉ s.bound ∧
      Derives r o s t fun h bs => ∃ cell, h[id]? = some cell ∧ cell.type = content ∧
        WellWritten r o h m content cell.content (s.bound.push id) bs t.bound := by
  obtain ⟨blank, heap, walk, w, m, made, _, level, inner, rfl, rfl⟩ := object_eq_ok.mp run
  cases n with
  | zero => cases level
  | succ k =>
      cases level
      have grown : s.heap.Extends heap := extends_makeBlank made
      have ⟨new, pushed⟩ := sound_push blank sound grown tagged room
      obtain ⟨bs, accepted, forms⟩ := deeper k rfl blank _ _ w pushed inner
      have placed : m.heap[heap.size]? = some ⟨content, blank⟩ :=
        accepted.heap_extends _ _ Array.getElem?_push_size
      refine ⟨k, heap.size, rfl, rfl, new, bs, ⟨accepted.passes, ?_, ?_, ?_⟩, ?_⟩
      · exact Heap.extends_fill grown accepted.heap_extends w
      · exact fun id member => accepted.grows id (Array.mem_push_of_mem _ member)
      · exact sound_fill accepted.sound heap.size w _
      · intro h settled
        have bound : heap.size ∈ m.bound := accepted.grows _ Array.mem_push_self
        refine ⟨⟨content, w⟩, ?_, rfl, forms h ⟨?_, ?_⟩⟩
        · rw [settled.content heap.size bound new]
          exact Heap.fill_self placed w
        · intro id member unbound
          have elsewhere : id ≠ heap.size := by
            rintro rfl
            exact unbound Array.mem_push_self
          rw [settled.content id member fun old => unbound (Array.mem_push_of_mem _ old)]
          exact Heap.fill_of_ne _ elsewhere w
        · intro id member
          rw [settled.type id member]
          exact m.heap.type_fill id heap.size w

/-! ## References -/

variable {type : Ty} {layout : Layout}

theorem nextNumber_eq (sound : s.Sound r o) : nextNumber s = s.bound.size :=
  Nat.mod_eq_of_lt (Nat.lt_of_le_of_lt (Nat.le_add_right _ _) sound.few)

/-- A number of an object bound before is the one the writer would choose. -/
theorem known_understood {number id : Nat} {tag : Bytes} {cell : Cell}
    (written : r.writer type = .ok layout) (sound : s.Sound r o) (small : number < leBound 4)
    (known : s.bound[number]? = some id) (found : s.heap[id]? = some cell)
    (refers : layout.Refers r cell.type tag)
    (moved : s.Consumes (backMarker :: leBytes 4 number) t) :
    Accepts r o n s type (.object id) t := by
  obtain ⟨bs, accepted, same⟩ := Derives.of_consumes sound moved
  refine ⟨bs, accepted, fun h settled => ?_⟩
  have member : id ∈ t.bound := accepted.grows id (Array.mem_of_getElem? known)
  have kept := settled.type id member
  rw [moved.heap_eq, found, Option.map_some, Option.map_eq_some_iff] at kept
  obtain ⟨cell', found', type_eq⟩ := kept
  have place : s.bound.idxOf? id = some number := idxOf?_of_getElem? sound.nodup known
  rw [same h settled, moved.bound_eq, ← Writing.encode_u32 small]
  exact ⟨.known written found' (type_eq ▸ refers) place, .of_refers written refers id,
    .refl r h _⟩

theorem fresh_understood {content : Ty} {tag : Bytes} {m : ReadState} {v : Value}
    (deeper : ∀ m, n = m + 1 → ∀ old,
      Understands r o m content (valueAt (r.readContext o) m content old))
    (written : r.writer type = .ok layout) (tagged : content ∈ r.tags) (sound : s.Sound r o)
    (refers : layout.Refers r content tag)
    (moved : s.Consumes (newMarker :: leBytes 4 (nextNumber s) ++ tag) m)
    (run : object (r.readContext o) (lowerAt (r.readContext o) n) (nextNumber s) content m =
      .ok v t) :
    Accepts r o n s type v t := by
  have first := Derives.of_consumes sound moved
  have taken := moved.passes.length_eq
  have few := sound.few
  have room : m.bound.size + m.input.remaining + 1 < leBound 4 := by
    rw [List.length_append, List.length_cons] at taken
    rw [ByteReader.remaining] at few ⊢
    rw [moved.bound_eq]
    omega
  obtain ⟨k, id, rfl, rfl, new, derived⟩ := object_understood deeper tagged first.sound room run
  have small : s.bound.size < leBound 4 := by omega
  rw [moved.bound_eq] at new derived
  refine first.append derived ?_
  rintro h _ cs rfl ⟨cell, found, rfl, content⟩
  rw [nextNumber_eq sound, ← Writing.encode_u32 small]
  refine ⟨.fresh written found refers new small content.written, .of_refers written refers id, ?_⟩
  intro k member unmet
  by_cases same : k = id
  · subst same
    exact ⟨cell, found, content.ordered⟩
  · exact content.arranged k member fun pushed => (Array.mem_push.mp pushed).elim unmet same

theorem reference_understood {v : Value} (uniform : r.Uniform type layout) (distinct : r.tags.Nodup)
    (deeper : ∀ m, n = m + 1 → ∀ content,
      (layout = .shared content ∨ layout = .anyShared ∧ content ∈ r.tags) →
      ∀ old, Understands r o m content (valueAt (r.readContext o) m content old))
    (sound : s.Sound r o)
    (run : (∃ content, layout = .shared content ∧
        shared (r.readContext o) (lowerAt (r.readContext o) n) content s = .ok v t) ∨
      layout = .anyShared ∧
        anyShared (r.readContext o) (lowerAt (r.readContext o) n) s = .ok v t) :
    Accepts r o n s type v t := by
  rcases run with ⟨content, rfl, run⟩ | ⟨rfl, run⟩
  · rcases shared_eq_ok.mp run with ⟨number, id, cell, small, known, found, rfl, rfl, moved⟩ |
      ⟨m, moved, run⟩
    · exact known_understood uniform.writer_eq sound small known found (.shared _) moved
    · refine fresh_understood (fun k level => deeper k level content (.inl rfl)) uniform.writer_eq
        (uniform.tagged content rfl) sound (.shared content) ?_ run
      rw [List.append_nil]
      exact moved
  · rcases anyShared_eq_ok.mp run with ⟨number, id, small, known, rfl, moved⟩ |
      ⟨place, content, m, small, named, moved, run⟩
    · obtain ⟨cell, found, listed⟩ := sound.held id (Array.mem_of_getElem? known)
      obtain ⟨place, tagged⟩ := r.exists_tag? listed
      exact known_understood uniform.writer_eq sound small known found (.anyShared tagged) moved
    · have listed : content ∈ r.tags := List.mem_of_getElem? named
      rw [← Writing.encode_u32 small] at moved
      exact fresh_understood (fun k level => deeper k level content (.inr ⟨rfl, listed⟩))
        uniform.writer_eq listed sound (.anyShared (r.tag?_of_ofTag? distinct named)) moved run

/-! ## Layouts -/

theorem admits_of_read (sound : s.Sound r o) {count : Nat}
    (within : count ≤ s.input.limit ∧ count < leBound 4) : o.Admits count := by
  rw [sound.limit_eq] at within
  exact ⟨within.1, Nat.le_of_lt_succ within.2⟩

theorem leaf_understood {v : Value} (uniform : r.Uniform type layout) (sound : s.Sound r o)
    (moved : s.Consumes bs t) (encodes : layout.Encodes o v bs) :
    Accepts r o n s type v t := by
  refine (Derives.of_consumes sound moved).mono ?_
  rintro h _ rfl
  rw [moved.bound_eq]
  exact ⟨.leaf uniform.writer_eq encodes, .of_encodes uniform.writer_eq encodes, .refl r h _⟩

theorem parts_understood {v : Value} {front : Bytes} {m : ReadState}
    (uniform : r.Uniform type layout) (sound : s.Sound r o) (moved : s.Consumes front m)
    (opens : layout.Opens o v front) (ordered : layout.Ordered v)
    (derived : AcceptsAll r o n m (layout.parts v) t) : Accepts r o n s type v t := by
  refine (Derives.of_consumes sound moved).append derived ?_
  rintro h _ cs rfl all
  rw [moved.bound_eq] at all
  exact ⟨.parts uniform.writer_eq opens all.written, .intro uniform.writer_eq ordered all.ordered,
    all.arranged⟩

section Containers

variable {fresh : Ty → Read Value} {old v : Value} {lower : Lower}

theorem counted_understood {f : Nat → Filling Value Value} (sound : s.Sound r o)
    (run : (keeping old (take Reading.length) >>= f) s = .ok v t) :
    ∃ count m, s.Consumes (leBytes 4 count) m ∧ o.Admits count ∧ m.Sound r o ∧
      f count m = .ok v t := by
  obtain ⟨count, m, first, run⟩ := bind_eq_ok.mp run
  obtain ⟨within, moved⟩ := take_length.mp (keeping_eq_ok.mp first)
  exact ⟨count, m, moved, admits_of_read sound within, (Derives.of_consumes sound moved).sound, run⟩

theorem seq_understood {item : Ty} (uniform : r.Uniform type (.seq item))
    (parts : Understands r o n item (fresh item)) (sound : s.Sound r o)
    (run : byLayout (r.readContext o) lower fresh type old (.seq item) s = .ok v t) :
    Accepts r o n s type v t := by
  obtain ⟨count, m, moved, admits, sound', run⟩ := counted_understood sound run
  obtain ⟨vs, rfl, rfl, derived⟩ := items_understood parts sound' run
  exact parts_understood uniform sound moved (.seq item vs admits) trivial derived

theorem set_understood {item : Ty} {order : KeyOrder} (uniform : r.Uniform type (.set item order))
    (parts : Understands r o n item (fresh item)) (sound : s.Sound r o)
    (run : byLayout (r.readContext o) lower fresh type old (.set item order) s = .ok v t) :
    Accepts r o n s type v t := by
  obtain ⟨count, m, moved, admits, sound', run⟩ := counted_understood sound run
  obtain ⟨vs, rfl, rfl, derived⟩ := items_understood parts sound' (items_of_ascendingItems run)
  exact parts_understood uniform sound moved (.set item order vs admits)
    (ascendingItems_ordered (fun _ => List.isChain_nil) run) derived

theorem map_understood {keyType valueType : Ty} {order : KeyOrder}
    (uniform : r.Uniform type (.map keyType valueType order))
    (keys : Understands r o n keyType (fresh keyType))
    (values : Understands r o n valueType (fresh valueType)) (sound : s.Sound r o)
    (run : byLayout (r.readContext o) lower fresh type old (.map keyType valueType order) s =
      .ok v t) :
    Accepts r o n s type v t := by
  obtain ⟨count, m, moved, admits, sound', run⟩ := counted_understood sound run
  obtain ⟨entries, rfl, rfl, shaped, derived⟩ := ascendingEntries_understood keys values sound' run
  exact parts_understood uniform sound moved (.map keyType valueType order entries admits shaped)
    (ascendingEntries_ordered (fun _ => List.isChain_nil) run) derived

theorem option_understood {item : Ty} (uniform : r.Uniform type (.option item))
    (parts : Understands r o n item (fresh item)) (sound : s.Sound r o)
    (run : byLayout (r.readContext o) lower fresh type old (.option item) s = .ok v t) :
    Accepts r o n s type v t := by
  obtain ⟨octet, m, first, run⟩ := bind_eq_ok.mp (keeping_eq_ok.mp run)
  have moved := take_octet.mp first
  by_cases absent : octet = 0
  · subst absent
    obtain ⟨rfl, rfl⟩ := pure_eq_ok.mp run
    exact leaf_understood uniform sound moved (.absent item)
  · by_cases present : octet = 1
    · subst present
      obtain ⟨w, m', inner, run⟩ := bind_eq_ok.mp run
      obtain ⟨rfl, rfl⟩ := pure_eq_ok.mp run
      have derived := parts m m' w (Derives.of_consumes sound moved).sound inner
      exact parts_understood uniform sound moved (.present item w) trivial
        (derived.cons (.nil derived.sound))
    · rw [if_neg absent, if_neg present] at run
      exact (throw_eq_ok.mp run).elim

theorem nested_understood {fields : List Ty} (uniform : r.Uniform type (.nested fields))
    (deeper : ∀ m, n = m + 1 → ∀ field ∈ fields, ∀ old,
      Understands r o m field (valueAt (r.readContext o) m field old))
    (sound : s.Sound r o)
    (run : byLayout (r.readContext o) (lowerAt (r.readContext o) n) fresh type old
      (.nested fields) s = .ok v t) :
    Accepts r o n s type v t := by
  obtain ⟨walk, level, run⟩ := descend_eq_ok.mp run
  cases n with
  | zero => cases level
  | succ m =>
      cases level
      cases old with
      | list olds =>
          obtain ⟨vs, inner, rfl⟩ := asRecord_eq_ok.mp run
          obtain ⟨full, derived⟩ := eachField_understood
            (fun field member old _ => deeper m rfl field member old) sound inner
          exact derived.mono fun h bs all => ⟨.nested uniform.writer_eq full all.written,
            .intro uniform.writer_eq trivial all.ordered, all.arranged⟩
      | _ => exact (throw_eq_ok.mp run).elim

theorem kept_understood {α : Type} {act : Reading α} {f : α → Value}
    (uniform : r.Uniform type layout) (sound : s.Sound r o)
    (encodes : ∀ a m, take act s = .ok a m → ∃ bs, s.Consumes bs m ∧ layout.Encodes o (f a) bs)
    (run : (do return f (← keeping old (take act)) : Filling Value Value) s = .ok v t) :
    Accepts r o n s type v t := by
  obtain ⟨a, m, first, run⟩ := bind_eq_ok.mp run
  obtain ⟨rfl, rfl⟩ := pure_eq_ok.mp run
  obtain ⟨bs, moved, form⟩ := encodes a m (keeping_eq_ok.mp first)
  exact leaf_understood uniform sound moved form

end Containers

theorem byLayout_understood {fresh : Ty → Read Value} {old v : Value}
    (uniform : r.Uniform type layout) (distinct : r.tags.Nodup)
    (parts : ∀ item ∈ layout.components, Understands r o n item (fresh item))
    (deeper : ∀ m, n = m + 1 → ∀ content,
      content ∈ layout.components ∨ layout = .anyShared ∧ content ∈ r.tags →
      ∀ old, Understands r o m content (valueAt (r.readContext o) m content old))
    (sound : s.Sound r o)
    (run : byLayout (r.readContext o) (lowerAt (r.readContext o) n) fresh type old layout s =
      .ok v t) :
    Accepts r o n s type v t := by
  have admits {count : Nat} : count ≤ s.input.limit ∧ count < leBound 4 → o.Admits count :=
    admits_of_read sound
  cases layout with
  | nothing =>
      obtain ⟨rfl, rfl⟩ := pure_eq_ok.mp run
      exact leaf_understood uniform sound (ReadState.consumes_nil.mpr rfl) (.nothing _)
  | bool =>
      exact kept_understood uniform sound (fun b m taken => ⟨_, take_bool.mp taken, .bool b⟩) run
  | scalar k =>
      exact kept_understood uniform sound
        (fun value m taken => ⟨_, (take_scalar.mp taken).2, .scalar k value⟩) run
  | text =>
      exact kept_understood uniform sound
        (fun text m taken =>
          ⟨_, (take_text.mp taken).2, .text text (admits (take_text.mp taken).1)⟩) run
  | octets =>
      exact kept_understood uniform sound
        (fun blob m taken =>
          ⟨_, (take_sized.mp taken).2, .octets blob (admits (take_sized.mp taken).1)⟩) run
  | seq item => exact seq_understood uniform (parts item (by simp [Layout.components])) sound run
  | set item order =>
      exact set_understood uniform (parts item (by simp [Layout.components])) sound run
  | map keyType valueType order =>
      exact map_understood uniform (parts keyType (by simp [Layout.components]))
        (parts valueType (by simp [Layout.components])) sound run
  | option item =>
      exact option_understood uniform (parts item (by simp [Layout.components])) sound run
  | nested fields =>
      exact nested_understood uniform
        (fun m level field member => deeper m level field (.inl member)) sound run
  | shared content =>
      refine reference_understood uniform distinct (fun m level content' leads => ?_) sound
        (.inl ⟨content, rfl, keeping_eq_ok.mp run⟩)
      rcases leads with ⟨⟨⟩⟩ | ⟨other, _⟩
      · exact deeper m level content (.inl (by simp [Layout.components]))
      · contradiction
  | anyShared =>
      refine reference_understood uniform distinct (fun m level content leads => ?_) sound
        (.inr ⟨rfl, keeping_eq_ok.mp run⟩)
      exact deeper m level content (leads.elim (fun other => by contradiction) .inr)
  | record fields => exact (throw_eq_ok.mp run).elim
  | refused container alternative => exact (throw_eq_ok.mp run).elim
  | packed _ | asset _ | counter | lowOctet => exact uniform.canonical.elim

/-! ## Walks -/

theorem create_understood {walk : Walker}
    (understood : ∀ blank, Understands r o n type (walk type blank)) :
    Understands r o n type (create (r.readContext o) walk type) := by
  intro s t v sound run
  obtain ⟨blank, heap, made, inner⟩ := create_eq_ok.mp run
  have grown : s.heap.Extends heap := extends_makeBlank made
  have prepared : ReadState.Sound r o { s with heap } := by
    refine ⟨sound.limit_eq, sound.nodup, fun id member => ?_, sound.few⟩
    obtain ⟨cell, found, listed⟩ := sound.held id member
    exact ⟨cell, grown _ _ found, listed⟩
  obtain ⟨bs, accepted, forms⟩ := understood blank _ t v prepared inner
  refine ⟨bs, ⟨accepted.passes, grown.trans accepted.heap_extends, accepted.grows,
    accepted.sound⟩, fun h settled => forms h ⟨settled.content, settled.type⟩⟩

theorem inPlace_understood (distinct : r.tags.Nodup) {fresh : Ty → Read Value}
    (parts : ∀ item, r.Canonical item → Understands r o n item (fresh item))
    (deeper : ∀ m, n = m + 1 → ∀ content, r.Canonical content → ∀ old,
      Understands r o m content (valueAt (r.readContext o) m content old))
    (old : Value) (canonical : r.Canonical type) : Understands r o n type
      (inPlace (r.readContext o) (lowerAt (r.readContext o) n) fresh type old) := by
  induction size : sizeOf old using Nat.strongRecOn generalizing type old with
  | ind k ih =>
      intro s t v sound run
      obtain ⟨layout, uniform⟩ := canonical type .self
      have component : ∀ item ∈ layout.components, r.Canonical item :=
        fun item member => canonical.component uniform.reader_eq member
      by_cases record : ∃ types, layout = .record types
      · obtain ⟨types, rfl⟩ := record
        obtain ⟨olds, rfl⟩ := list_of_inPlace_record uniform.reader_eq run
        obtain ⟨vs, inner, rfl⟩ := (inPlace_record uniform.reader_eq olds).mp run
        have each : ∀ type' ∈ types, ∀ old' ∈ olds, Understands r o n type'
            (inPlace (r.readContext o) (lowerAt (r.readContext o) n) fresh type' old') := by
          intro type' member old' inside
          have smaller := List.sizeOf_lt_of_mem inside
          rw [Value.list.sizeOf_spec] at size
          exact ih (sizeOf old') (by omega) old' (component type' member) rfl
        obtain ⟨full, derived⟩ := eachField_understood each sound inner
        exact parts_understood uniform sound (ReadState.consumes_nil.mpr rfl)
          (.record types vs full) trivial derived
      · rw [inPlace_eq_byLayout uniform.reader_eq fun types same => record ⟨types, same⟩] at run
        refine byLayout_understood uniform distinct
          (fun item member => parts item (component item member)) ?_ sound run
        intro m level content leads
        refine deeper m level content ?_
        rcases leads with member | ⟨rfl, listed⟩
        · exact component content member
        · exact canonical.tagged uniform.reader_eq listed

theorem value_understood (distinct : r.tags.Nodup)
    (deeper : ∀ m, n = m + 1 → ∀ content, r.Canonical content → ∀ old,
      Understands r o m content (valueAt (r.readContext o) m content old))
    (octets : Nat) (old : Value) (canonical : r.Canonical type) : Understands r o n type
      (value (r.readContext o) (lowerAt (r.readContext o) n) octets type old) := by
  induction octets generalizing type old with
  | zero =>
      rw [value_eq]
      exact inPlace_understood distinct (fun item _ s t v _ run => (throw_eq_ok.mp run).elim)
        deeper old canonical
  | succ octets ih =>
      rw [value_eq]
      exact inPlace_understood distinct
        (fun item canonical => create_understood fun blank => ih blank canonical) deeper old
        canonical

theorem valueAt_understood (distinct : r.tags.Nodup) (n : Nat) (old : Value)
    (canonical : r.Canonical type) :
    Understands r o n type (valueAt (r.readContext o) n type old) := by
  induction n generalizing type old with
  | zero =>
      intro s t v sound run
      rw [valueAt_eq] at run
      exact value_understood distinct (fun m level => (Nat.succ_ne_zero m level.symm).elim)
        s.input.remaining old canonical s t v sound run
  | succ n ih =>
      intro s t v sound run
      have deeper : ∀ m, n + 1 = m + 1 → ∀ content, r.Canonical content → ∀ old,
          Understands r o m content (valueAt (r.readContext o) m content old) := by
        rintro m ⟨⟩ content canonical old
        exact ih old canonical
      rw [valueAt_eq] at run
      exact value_understood distinct deeper s.input.remaining old canonical s t v sound run

end Read

end Chronicle
