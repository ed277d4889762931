import Chronicle.Proofs.Heap
import Chronicle.Proofs.Walk.Laws

/-!
# What a walk leaves alone

Whether it succeeds or fails, a walk that reads takes input from the front,
touches no object that was there before it, and binds only objects it made.
-/

namespace Chronicle

open Success

theorem Heap.Extends.size_le {h h' : Heap} (grown : h.Extends h') : h.size ≤ h'.size := by
  rcases Nat.eq_zero_or_pos h.size with empty | nonempty
  · omega
  · have last : h[h.size - 1]? = some h[h.size - 1] := Array.getElem?_eq_getElem (by omega)
    have := (Array.getElem?_eq_some_iff.mp (grown _ _ last)).1
    omega

/-- A way for states to follow each other that a walk keeps to when it takes input
or adds objects. -/
structure ReadState.Following (R : ReadState → ReadState → Prop) : Prop where
  refl : ∀ s, R s s
  trans : ∀ {s t u}, R s t → R t u → R s u
  of_input : ∀ {s : ReadState} {input : ByteReader} {bs : Bytes}, s.input.Passes bs input →
    R s { s with input }
  of_heap : ∀ {s : ReadState} {heap : Heap}, s.heap.Extends heap → R s { s with heap }

structure ReadState.Onward (s t : ReadState) : Prop where
  passes : ∃ bs, s.input.Passes bs t.input
  heap_extends : s.heap.Extends t.heap
  bound_eq : ∃ ids : List Nat, t.bound.toList = s.bound.toList ++ ids ∧
    ∀ id ∈ ids, s.heap.size ≤ id ∧ id < t.heap.size
  filling_eq : t.filling = s.filling

namespace ReadState

variable {s t u : ReadState}

theorem Onward.of_input {input : ByteReader} {bs : Bytes} (passes : s.input.Passes bs input) :
    s.Onward { s with input } :=
  ⟨⟨bs, passes⟩, .refl _, ⟨[], by simp⟩, rfl⟩

theorem Onward.of_heap {heap : Heap} (grown : s.heap.Extends heap) : s.Onward { s with heap } :=
  ⟨⟨[], .refl _⟩, grown, ⟨[], by simp⟩, rfl⟩

theorem Onward.refl (s : ReadState) : s.Onward s := .of_heap (.refl _)

theorem Onward.trans (first : s.Onward t) (second : t.Onward u) : s.Onward u := by
  obtain ⟨bs, passes⟩ := first.passes
  obtain ⟨cs, passes'⟩ := second.passes
  obtain ⟨ids, bound, new⟩ := first.bound_eq
  obtain ⟨ids', bound', new'⟩ := second.bound_eq
  have early := first.heap_extends.size_le
  have late := second.heap_extends.size_le
  refine ⟨⟨bs ++ cs, passes.trans passes'⟩, first.heap_extends.trans second.heap_extends,
    ⟨ids ++ ids', by simp [bound, bound'], fun id member => ?_⟩,
    second.filling_eq.trans first.filling_eq⟩
  rcases List.mem_append.mp member with member | member
  · have := new id member
    omega
  · have := new' id member
    omega

theorem following_onward : Following Onward := ⟨.refl, .trans, .of_input, .of_heap⟩

/-- What was there before a new object is left alone by the walk that fills it. -/
theorem Onward.of_new {heap : Heap} {cell : Cell} (grown : s.heap.Extends heap)
    (inner : ReadState.Onward
      { s with
        heap := heap.push cell
        bound := s.bound.push heap.size
        filling := heap.size :: s.filling } t) (v : Value) :
    s.Onward { t with heap := t.heap.fill heap.size v, filling := s.filling } := by
  obtain ⟨ids, bound, new⟩ := inner.bound_eq
  have room := grown.size_le
  have wide := inner.heap_extends.size_le
  simp only [Array.size_push] at new wide
  refine ⟨inner.passes, Heap.extends_fill grown inner.heap_extends v,
    ⟨heap.size :: ids, by simp [bound], ?_⟩, rfl⟩
  simp only [Heap.fill, Array.size_modify, List.mem_cons, forall_eq_or_imp]
  exact ⟨by omega, fun id member => by have := new id member; omega⟩

theorem Onward.remaining_le (onward : s.Onward t) : t.input.remaining ≤ s.input.remaining := by
  obtain ⟨bs, passes⟩ := onward.passes
  have := passes.length_eq
  simp only [ByteReader.remaining]
  omega

theorem Onward.mem_bound (onward : s.Onward t) {id : Nat} (member : id ∈ s.bound) :
    id ∈ t.bound := by
  obtain ⟨ids, bound, _⟩ := onward.bound_eq
  rw [← Array.mem_toList_iff, bound]
  exact List.mem_append_left _ (Array.mem_toList_iff.mpr member)

theorem Onward.bound_before_or_new (onward : s.Onward t) {id : Nat} (member : id ∈ t.bound) :
    id ∈ s.bound ∨ s.heap.size ≤ id := by
  obtain ⟨ids, bound, new⟩ := onward.bound_eq
  rw [← Array.mem_toList_iff, bound, List.mem_append, Array.mem_toList_iff] at member
  exact member.imp_right fun made => (new id made).1

end ReadState

/-! ## Walks -/

theorem Registry.extends_finalState_makeBlank (r : Registry) (type : Ty) (h : Heap) :
    h.Extends (finalState (r.makeBlank type h)) := by
  rw [makeBlank.eq_def]
  cases r.initializer type with
  | error e => exact .refl h
  | ok way =>
      cases way with
      | template t => exact t.extends_make h
      | refused container alternative => exact .refl h
      | placeholder =>
          cases type with
          | shared content =>
              have inner := extends_finalState_makeBlank r content h
              change h.Extends (finalState ((r.makeBlank content >>= _) h))
              cases run : r.makeBlank content h with
              | error e m =>
                  rw [bind_of_error run]
                  simpa [run] using inner
              | ok blank m =>
                  rw [bind_of_ok run]
                  exact .trans (by simpa [run] using inner) (Heap.extends_allocate m content blank)
          | _ => exact .refl h
termination_by type

namespace Read

variable {c : ReadContext} {lower : Lower}

def Follows (R : ReadState → ReadState → Prop) {ε α : Type} (_ : ε → WalkError)
    (act : EStateM ε ReadState α) : Prop := ∀ s, R s (finalState (act s))

section Following

variable {R : ReadState → ReadState → Prop} (following : ReadState.Following R)
include following

theorem follows_bind {ε α β : Type} {cause : ε → WalkError} {x : EStateM ε ReadState α}
    {f : α → EStateM ε ReadState β} (first : Follows R cause x)
    (rest : ∀ a, Follows R cause (f a)) : Follows R cause (x >>= f) := by
  intro s
  have begun := first s
  cases run : x s with
  | error e t =>
      rw [bind_of_error run]
      simpa [run] using begun
  | ok a t =>
      rw [bind_of_ok run]
      exact following.trans (by simpa [run] using begun) (rest a t)

theorem follows_take {α : Type} {act : Reading α} (field : act.IsField) :
    Follows R id (take act) := by
  intro s
  obtain ⟨bs, passes⟩ := field.advances s.input
  unfold take
  cases run : act s.input <;> rw [run] at passes <;> exact following.of_input passes

theorem rules_follows : Rules (Follows R) where
  pure _ s := following.refl s
  throw _ _ s := following.refl s
  bind := follows_bind following
  relabel _ holds s := by
    have := holds s
    unfold relabel
    split <;> simp_all
  look _ holds s := holds s s
  field := follows_take following

theorem follows_marker : Follows R id marker := by
  refine follows_bind following (follows_take following .octet) fun octet => ?_
  split
  · refine follows_bind following (follows_take following .word) fun found s => ?_
    rw [get_bind]
    split <;> exact following.refl s
  · split
    · refine follows_bind following (follows_take following .word) fun number s => ?_
      rw [get_bind]
      cases s.bound[number]? <;> exact following.refl s
    · exact following.refl

theorem follows_blank (type : Ty) : Follows R id (make (c.registry.makeBlank type)) := by
  intro s
  have grown := c.registry.extends_finalState_makeBlank type s.heap
  unfold make
  cases run : c.registry.makeBlank type s.heap <;> rw [run] at grown <;>
    exact following.of_heap grown

end Following

def Advances {ε α : Type} (_ : ε → WalkError) (act : EStateM ε ReadState α) : Prop :=
  ∀ s : ReadState, s.Onward (finalState (act s))

def announce (c : ReadContext) (number : Nat) (content : Ty) : Read (Nat × Value) := do
  let blank ← make (c.registry.makeBlank content)
  let id ← make (modifyGet fun h => h.allocate content blank)
  bind number id
  return (id, blank)

theorem announce_eq (number : Nat) (content : Ty) (s : ReadState) :
    announce c number content s =
      match c.registry.makeBlank content s.heap with
      | .error e heap => .error e { s with heap }
      | .ok blank heap =>
          if number = nextNumber s then
            .ok (heap.size, blank)
              { s with heap := heap.push ⟨content, blank⟩, bound := s.bound.push heap.size }
          else .error (.referenceOutOfSequence (nextNumber s) number)
            { s with heap := heap.push ⟨content, blank⟩ } := by
  cases made : c.registry.makeBlank content s.heap with
  | error e heap => rw [announce, bind_of_error (by rw [make, made])]
  | ok blank heap =>
      have blanked : make (c.registry.makeBlank content) s = .ok blank { s with heap } := by
        rw [make, made]
      have placed : make (modifyGet fun h : Heap => h.allocate content blank) { s with heap } =
          .ok heap.size { s with heap := heap.push ⟨content, blank⟩ } := rfl
      rw [announce, bind_of_ok blanked, bind_of_ok placed]
      by_cases next : number = nextNumber s
      · have bound : bind number heap.size { s with heap := heap.push ⟨content, blank⟩ } =
            .ok () { s with heap := heap.push ⟨content, blank⟩, bound := s.bound.push heap.size } :=
          bind_number_eq_ok.mpr ⟨next, rfl⟩
        rw [bind_of_ok bound]
        simp only [next, ↓reduceIte]
        rfl
      · have refused : bind number heap.size { s with heap := heap.push ⟨content, blank⟩ } =
            .error (.referenceOutOfSequence (nextNumber s) number)
              { s with heap := heap.push ⟨content, blank⟩ } := by
          rw [bind, get_bind]
          exact if_pos next ▸ rfl
        rw [bind_of_error refused]
        simp only [next, ↓reduceIte]

theorem object_eq (number : Nat) (content : Ty) (s : ReadState) :
    object c lower number content s =
      match announce c number content s with
      | .error e t => .error e t
      | .ok (id, blank) t =>
          match descend c lower blank (fun walk => walk content blank)
              { t with filling := id :: t.filling } with
          | .ok v u => .ok (.object id) { u with heap := u.heap.fill id v, filling := t.filling }
          | .error (e, v) u =>
              .error e { u with heap := u.heap.fill id v, filling := t.filling } := by
  have steps : object c lower number content =
      announce c number content >>= fun new => do
        fillObject c lower new.1
        return .object new.1 := by
    simp only [object, announce, bind_assoc, pure_bind]
  rw [steps]
  cases announced : announce c number content s with
  | error e t => rw [bind_of_error announced]
  | ok new t =>
      rw [bind_of_ok announced]
      have found : t.heap[new.1]? = some ⟨content, new.2⟩ := by
        rw [announce_eq] at announced
        split at announced
        · contradiction
        · split at announced
          · cases announced
            exact Array.getElem?_push_size
          · contradiction
      cases run : descend c lower new.2 (fun walk => walk content new.2)
          { t with filling := new.1 :: t.filling } with
      | ok v u =>
          have filled : fillObject c lower new.1 t =
              .ok () { u with heap := u.heap.fill new.1 v, filling := t.filling } := by
            simp only [fillObject, found, run]
          rw [bind_of_ok filled]
          simp only [run]
          rfl
      | error e u =>
          have failed : fillObject c lower new.1 t =
              .error e.1 { u with heap := u.heap.fill new.1 e.2, filling := t.filling } := by
            simp only [fillObject, found, run]
          rw [bind_of_error failed]
          simp only [run]

theorem advances_object (number : Nat) (content : Ty)
    (deeper : ∀ walk, lower = some walk → ∀ old, Advances Prod.fst (walk content old)) :
    Advances id (object c lower number content) := by
  intro s
  have grown := c.registry.extends_finalState_makeBlank content s.heap
  rw [object_eq, announce_eq]
  cases made : c.registry.makeBlank content s.heap with
  | error e heap => exact .of_heap (by simpa [made] using grown)
  | ok blank heap =>
      rw [made, finalState_ok] at grown
      by_cases next : number = nextNumber s
      · simp only [if_pos next]
        have inner : ∀ t : ReadState, t.Onward (finalState
            (descend c lower blank (fun walk => walk content blank) t)) := by
          cases lower with
          | none => exact fun t => .refl _
          | some walk => exact deeper walk rfl blank
        have onward := inner
          { s with
            heap := heap.push ⟨content, blank⟩
            bound := s.bound.push heap.size
            filling := heap.size :: s.filling }
        split
        · next v t run => exact .of_new grown (by simpa [run] using onward) v
        · next e v t run => exact .of_new grown (by simpa [run] using onward) v
      · simp only [if_neg next]
        exact .of_heap (grown.trans (heap.extends_allocate content blank))

theorem law_advances (c : ReadContext) : Law c Advances where
  toRules := rules_follows ReadState.following_onward
  ascend := (rules_follows ReadState.following_onward).ascend fun _ _ _ _ => .refl
  marker := follows_marker ReadState.following_onward
  blank := follows_blank ReadState.following_onward
  object number content := advances_object number content

theorem advances_valueAt (c : ReadContext) :
    ∀ (n : Nat) (type : Ty) (old : Value), Advances Prod.fst (valueAt c n type old) :=
  everyLevel (Q := fun walk => ∀ type old, Advances Prod.fst (walk type old))
    fun n deeper type old s => by
      rw [valueAt_eq]
      exact (law_advances c).value deeper _ type old s

theorem advances_lowerAt (c : ReadContext) (n : Nat) :
    ∀ walk, lowerAt c n = some walk → ∀ type old, Advances Prod.fst (walk type old) := by
  cases n with
  | zero => simp [lowerAt]
  | succ n => simpa [lowerAt] using advances_valueAt c n

end Read

end Chronicle
