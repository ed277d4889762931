import Chronicle.Proofs.Walk.RoundTrip
import Chronicle.Proofs.Walk.Unfolding

/-!
# Walks into one value or another

A walk leaves nothing of the value it was given: with any other value that has
the fields to fill it takes the same octets and comes to the same value, or to
the same failure.  Objects that were there before stay as they were, so an old
reference is replaced and never filled through.
-/

namespace Chronicle

open Success

namespace Read

variable {c : ReadContext}

/-! ## Work with one outcome -/

def Alike {α β : Type} (act act' : Filling β α) : Prop :=
  relabel Prod.fst act = relabel Prod.fst act'

namespace Alike

variable {α β γ δ : Type} {act act' : Filling β α}

theorem refl (act : Filling β α) : Alike act act := rfl

theorem throw (e : WalkError) (old old' : β) :
    Alike (MonadExcept.throw (e, old) : Filling β α) (MonadExcept.throw (e, old')) := rfl

theorem run (alike : Alike act act') (s : ReadState) :
    relabel Prod.fst act s = relabel Prod.fst act' s := congrFun alike s

theorem bind {f f' : α → Filling β γ} (first : Alike act act') (rest : ∀ a, Alike (f a) (f' a)) :
    Alike (act >>= f) (act' >>= f') := by
  funext s
  have outcome := first.run s
  cases here : act s with
  | ok a t =>
      cases there : act' s with
      | ok b u =>
          rw [relabel, relabel, here, there] at outcome
          cases outcome
          rw [relabel, relabel, bind_of_ok here, bind_of_ok there]
          exact (rest a).run t
      | error e u => simp [relabel, here, there] at outcome
  | error e t =>
      cases there : act' s with
      | ok b u => simp [relabel, here, there] at outcome
      | error e' u =>
          rw [relabel, relabel, here, there] at outcome
          rw [relabel, relabel, bind_of_error here, bind_of_error there]
          simpa using outcome

theorem relabel {h h' : WalkError × β → WalkError × δ} (alike : Alike act act')
    (cause : ∀ e, (h e).1 = e.1) (cause' : ∀ e, (h' e).1 = e.1) :
    Alike (Read.relabel h act) (Read.relabel h' act') := by
  funext s
  have outcome := alike.run s
  simp only [Read.relabel] at outcome ⊢
  cases here : act s <;> cases there : act' s <;> simp_all

theorem keeping (old old' : β) (act : Read α) :
    Alike (Read.keeping old act) (Read.keeping old' act) := by
  funext s
  simp only [Read.relabel, Read.keeping]
  cases act s <;> rfl

theorem kept (old old' : β) (act : Read α) (f : α → Filling β γ) :
    Alike (Read.keeping old act >>= f) (Read.keeping old' act >>= f) :=
  (keeping old old' act).bind fun a => refl (f a)

theorem asRecord {act act' : Filling (List Value) (List Value)} (alike : Alike act act') :
    Alike (asRecord act) (Read.asRecord act') := by
  rw [asRecord_eq, asRecord_eq]
  exact bind (relabel alike (fun _ => rfl) fun _ => rfl) fun _ => refl _

end Alike

/-! ## Values that can be filled -/

theorem valueAt_of_replaces {type : Ty} {layout : Layout}
    (found : c.registry.reader type = .ok layout) (replaces : layout.Replaces) (n : Nat)
    (old : Value) :
    valueAt c n type old = byLayout c (lowerAt c n) (create c (valueAt c n)) type old layout := by
  refine valueAt_of_layout found n ?_
  rintro types _ rfl
  exact replaces.elim

theorem byLayout_alike {lower : Lower} {fresh : Ty → Read Value} (type : Ty) {layout : Layout}
    (replaces : layout.Replaces) (x y : Value) :
    Alike (byLayout c lower fresh type x layout) (byLayout c lower fresh type y layout) := by
  cases layout with
  | nothing | record types | nested types | counter => exact replaces.elim
  | refused container alternative => exact .throw _ x y
  | option item | shared content | anyShared | asset content | packed format => exact .keeping x y _
  | _ => exact .kept x y _ _

mutual

theorem valueAt_alike {type : Ty} {x y : Value} : c.registry.Fillable type x →
    c.registry.Fillable type y → ∀ n, Alike (valueAt c n type x) (valueAt c n type y)
  | .nothing found, other, n => by
      cases other with
      | nothing _ => exact .refl _
      | record found' _ | nested found' _ => cases found.symm.trans found'
      | replaced _ found' replaces =>
          cases found.symm.trans found'
          exact replaces.elim
  | .record found xs, other, n => by
      obtain ⟨ys, rfl, others⟩ := other.fields found (.inl rfl)
      rw [valueAt_record found, valueAt_record found]
      exact (eachField_alike xs others n).asRecord
  | .nested found xs, other, n => by
      obtain ⟨ys, rfl, others⟩ := other.fields found (.inr rfl)
      rw [valueAt_of_layout found n (by simp), valueAt_of_layout found n (by simp)]
      cases n with
      | zero => exact .throw _ _ _
      | succ n => exact (eachField_alike xs others n).asRecord
  | .replaced x found replaces, _, n => by
      rw [valueAt_of_replaces found replaces, valueAt_of_replaces found replaces]
      exact byLayout_alike type replaces x y

theorem eachField_alike {types : List Ty} {xs ys : List Value} : c.registry.FillableAll types xs →
    c.registry.FillableAll types ys → ∀ n,
      Alike (eachField (valueAt c n) types xs) (eachField (valueAt c n) types ys)
  | .nil, .nil, _ => .refl _
  | .cons x xs, .cons y ys, n => by
      rw [eachField_cons_eq, eachField_cons_eq]
      refine .bind (.relabel (valueAt_alike x y n) (fun _ => rfl) fun _ => rfl) fun v => ?_
      exact .bind (.relabel (eachField_alike xs ys n) (fun _ => rfl) fun _ => rfl) fun _ => .refl _

end

/-! ## References -/

section References

variable {lower : Lower} {s t : ReadState} {v : Value}

theorem bound_of_object (deeper : ∀ walk, lower = some walk → ∀ type old,
    Advances Prod.fst (walk type old)) {number : Nat} {content : Ty}
    (run : object c lower number content s = .ok v t) : ∃ id, v = .object id ∧ id ∈ t.bound := by
  obtain ⟨blank, heap, walk, w, m, _, _, level, inner, rfl, rfl⟩ := object_eq_ok.mp run
  have onward := deeper walk level content blank
    { s with
      heap := heap.push ⟨content, blank⟩
      bound := s.bound.push heap.size
      filling := heap.size :: s.filling }
  rw [inner] at onward
  exact ⟨heap.size, rfl, onward.mem_bound Array.mem_push_self⟩

theorem bound_of_shared (deeper : ∀ walk, lower = some walk → ∀ type old,
    Advances Prod.fst (walk type old)) {content : Ty} (run : shared c lower content s = .ok v t) :
    ∃ id, v = .object id ∧ id ∈ t.bound := by
  rcases shared_eq_ok.mp run with ⟨number, id, _, _, known, _, _, rfl, moved⟩ | ⟨m, _, new⟩
  · exact ⟨id, rfl, moved.bound_eq ▸ Array.mem_of_getElem? known⟩
  · exact bound_of_object deeper new

theorem bound_of_anyShared (deeper : ∀ walk, lower = some walk → ∀ type old,
    Advances Prod.fst (walk type old)) (run : anyShared c lower s = .ok v t) :
    ∃ id, v = .object id ∧ id ∈ t.bound := by
  rcases anyShared_eq_ok.mp run with ⟨number, id, _, known, rfl, moved⟩ | ⟨_, _, m, _, _, _, new⟩
  · exact ⟨id, rfl, moved.bound_eq ▸ Array.mem_of_getElem? known⟩
  · exact bound_of_object deeper new

/-- A reference leads to an object of this walk or of what was restored before it. -/
theorem reference_replaced {type : Ty} {layout : Layout} {old : Value} {n : Nat}
    (found : c.registry.reader type = .ok layout)
    (reference : layout = .anyShared ∨ ∃ content, layout = .shared content)
    (run : valueAt c n type old s = .ok v t) :
    ∃ id, v = .object id ∧ id ∈ t.bound ∧ (id ∈ s.bound ∨ s.heap.size ≤ id) := by
  have deeper := advances_lowerAt c n
  have outcome : ∃ id, v = .object id ∧ id ∈ t.bound := by
    rcases reference with rfl | ⟨content, rfl⟩
    · rw [valueAt_of_replaces found trivial] at run
      exact bound_of_anyShared deeper (keeping_eq_ok.mp run)
    · rw [valueAt_of_replaces found trivial] at run
      exact bound_of_shared deeper (keeping_eq_ok.mp run)
  obtain ⟨id, rfl, member⟩ := outcome
  have onward := advances_valueAt c n type old s
  rw [run] at onward
  exact ⟨id, rfl, member, onward.bound_before_or_new member⟩

end References

/-- A walk comes to the same value, the same failure and the same state with any
value that it can fill, the initializer's among them, and leaves all objects as
they were.  A reference it reads is to an object that was bound before or that is
new. -/
theorem walk_leaves_nothing {type : Ty} {x y : Value} (old : c.registry.Fillable type x)
    (other : c.registry.Fillable type y) (n : Nat) (s : ReadState) :
    discarding (valueAt c n type x) s = discarding (valueAt c n type y) s ∧
      s.heap.Extends (finalState (valueAt c n type x s)).heap ∧
      (∀ blank heap, c.registry.makeBlank type s.heap = .ok blank heap →
        c.registry.Fillable type blank →
        create c (valueAt c n) type s = discarding (valueAt c n type x) { s with heap }) ∧
      ∀ target layout, c.registry.reader target = .ok layout →
        (layout = .anyShared ∨ ∃ content, layout = .shared content) →
        ∀ before after t, valueAt c n target before s = .ok after t →
          ∃ id, after = .object id ∧ id ∈ t.bound ∧ (id ∈ s.bound ∨ s.heap.size ≤ id) := by
  refine ⟨?_, (advances_valueAt c n type x s).heap_extends, fun blank heap made fillable => ?_,
    fun target layout found reference before after t run => reference_replaced found reference run⟩
  · rw [discarding_eq, discarding_eq]
    exact (valueAt_alike old other n).run s
  · have blanked : make (c.registry.makeBlank type) s = .ok blank { s with heap } :=
      make_eq_ok.mpr ⟨heap, made, rfl⟩
    rw [create, bind_of_ok blanked, discarding_eq, discarding_eq]
    exact (valueAt_alike fillable old n).run _

theorem walk_leaves_nothing_knot :
    let c := knotRegistry.readContext {}
    let s : ReadState := { input := { rest := knotOctets, limit := 64 }, heap := knotGraph.heap }
    let x := Value.list [.int 0, .absent, .nothing]
    let y := Value.list [.int 9, .present (.object 0), .object 0]
    c.registry.Fillable knot x ∧ c.registry.Fillable knot y ∧
      discarding (valueAt c 512 knot x) s = discarding (valueAt c 512 knot y) s ∧
      s.heap.Extends (finalState (valueAt c 512 knot x s)).heap := by
  intro c s x y
  have fills : ∀ n u v : Value, c.registry.Fillable knot (.list [n, u, v]) := fun n u v =>
    .record rfl (.cons (.replaced n rfl trivial)
      (.cons (.replaced u rfl trivial) (.cons (.replaced v rfl trivial) .nil)))
  obtain ⟨alike, kept, _⟩ := walk_leaves_nothing (fills (.int 0) .absent .nothing)
    (fills (.int 9) (.present (.object 0)) (.object 0)) 512 s
  exact ⟨fills _ _ _, fills _ _ _, alike, kept⟩

end Read

end Chronicle
