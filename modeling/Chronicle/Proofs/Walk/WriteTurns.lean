import Chronicle.Proofs.Walk.Moments
import Chronicle.Proofs.Walk.WriteSteps

/-!
# Writing in turns

The walk that writes as one that calls: for each part of a value, and for the
content of each object it meets for the first time.
-/

namespace Chronicle

open Success

inductive WriteGoal where
  | value (type : Ty) (v : Value)
  /-- The fields of a record on a level of their own. -/
  | fields (types : List Ty) (vs : List Value)
  /-- The content of an object, which someone else may be changing. -/
  | content (id : Nat) (type : Ty) (v : Value)

abbrev WriteTurn (α : Type) : Type := Pending WriteGoal WriteState WalkError Unit WalkError α

namespace Write.Turns

variable (c : WriteContext)

def eachItem (type : Ty) : List Value → WriteTurn Unit
  | [] => return
  | v :: rest => do
      .call .along (.value type v)
      eachItem type rest

def eachEntry (keyType valueType : Ty) : List Value → WriteTurn Unit
  | [] => return
  | .entry k v :: rest => do
      .call .along (.value keyType k)
      .call .along (.value valueType v)
      eachEntry keyType valueType rest
  | _ :: _ => .lift (throw (.typeMismatch "entry"))

def eachField : List Ty → List Value → WriteTurn Unit
  | [], [] => return
  | type :: types, v :: rest => do
      .call .along (.value type v)
      eachField types rest
  | _, _ => .lift (throw (.typeMismatch "record"))

def shared (content : Ty) (id : Nat) : WriteTurn Unit := do
  match c.heap[id]? with
  | none => .lift (throw (.typeMismatch content.name))
  | some cell =>
      if cell.type = content then
        if ← .lift (reference id) then
          .lift (unborrowed c id content)
          .call (.into id) (.value content cell.content)
      else .lift (throw (.typeMismatch content.name))

def anyShared (id : Nat) : WriteTurn Unit := do
  match c.heap[id]? with
  | none => .lift (throw (.typeMismatch Ty.anyShared.name))
  | some cell =>
      match c.registry.tag? cell.type with
      | none => .lift (throw (.unregisteredShared cell.type.name))
      | some tag =>
          if ← .lift (reference id) then
            .lift (emit (Writing.scalar .u32 tag))
            .call (.into id) (.content id cell.type cell.content)

def byLayout (type : Ty) : Layout → Value → WriteTurn Unit
  | .seq item, .list vs => do
      .lift (emit (Writing.length vs.length))
      eachItem item vs
  | .set item _, .list vs => do
      .lift (emit (Writing.length vs.length))
      eachItem item vs
  | .map keyType valueType _, .list vs => do
      .lift (emit (Writing.length vs.length))
      eachEntry keyType valueType vs
  | .record types, .list vs => eachField types vs
  | .option item, .present v => do
      .lift (emit (Writing.octet 1))
      .call .along (.value item v)
  | .nested types, .list vs => .call .down (.fields types vs)
  | .shared content, .object id => shared c content id
  | .anyShared, .object id => anyShared c id
  -- Other values call for nothing.
  | layout, v => .lift (whole c none type layout v)

def value (type : Ty) (v : Value) : WriteTurn Unit :=
  match c.registry.writer type with
  | .ok layout => byLayout c type layout v
  | .error e => .lift (throw e)

def body : WriteGoal → WriteTurn Unit
  | .value type v => value c type v
  | .fields types vs => eachField types vs
  | .content id type v => do
      .lift (unborrowed c id type)
      value c type v

end Write.Turns

/-- The walk that writes.  Contents are only looked at, so one that is being
written can be looked at again. -/
def WriteContext.calls (c : WriteContext) : Calls WriteGoal WriteState WalkError Unit where
  body := Write.Turns.body c
  limit := c.maxDepth
  tooDeep _ := .depthExceeded c.maxDepth
  taken _ := none

namespace Write

variable {c : WriteContext}

def goalAt (c : WriteContext) (n : Nat) : WriteGoal → Write Unit
  | .value type v => valueAt c n type v
  | .fields types vs => eachField (valueAt c n) types vs
  | .content id type v => do
      unborrowed c id type
      valueAt c n type v

namespace Turns

variable {n : Nat}

theorem answer_along (c : WriteContext) (n : Nat) (type : Ty) (v : Value) :
    c.calls.answer (goalAt c) n .along (.value type v) = Write.value c (lower c n) type v := by
  rw [← valueAt_eq]
  cases n <;> rfl

theorem run_eachItem (type : Ty) (vs : List Value) :
    (eachItem type vs).run (c.calls.answer (goalAt c) n) =
      Write.eachItem c (lower c n) type vs := by
  induction vs with
  | nil => rfl
  | cons v rest ih =>
      simp only [eachItem, Write.eachItem, Pending.run_bind, Pending.run_call, answer_along, ih]

theorem run_eachEntry (keyType valueType : Ty) (vs : List Value) :
    (eachEntry keyType valueType vs).run (c.calls.answer (goalAt c) n) =
      Write.eachEntry c (lower c n) keyType valueType vs := by
  induction vs with
  | nil => rfl
  | cons e rest ih =>
      cases e with
      | entry k v =>
          simp only [eachEntry, Write.eachEntry, Pending.run_bind, Pending.run_call,
            answer_along, ih]
      | _ => rfl

theorem run_eachField (types : List Ty) (vs : List Value) :
    (eachField types vs).run (c.calls.answer (goalAt c) n) =
      Write.eachField (valueAt c n) types vs := by
  induction types generalizing vs with
  | nil => cases vs <;> rfl
  | cons type types ih =>
      cases vs with
      | nil => rfl
      | cons v rest =>
          simp only [eachField, Write.eachField, Pending.run_bind, Pending.run_call,
            answer_along, ih, valueAt_eq]

theorem run_fieldsInPlace (types : List Ty) (vs : List Value) :
    (eachField types vs).run (c.calls.answer (goalAt c) n) =
      fieldsInPlace c (lower c n) types vs := by
  rw [run_eachField]
  induction vs generalizing types with
  | nil => cases types <;> rfl
  | cons v rest ih =>
      cases types with
      | nil => rfl
      | cons type types => simp only [Write.eachField, fieldsInPlace, ih, valueAt_eq]

theorem run_shared (content : Ty) (id : Nat) :
    (shared c content id).run (c.calls.answer (goalAt c) n) =
      Write.shared c (lower c n) content id := by
  unfold shared Write.shared
  cases c.heap[id]? with
  | none => rfl
  | some cell =>
      simp only
      split
      · simp only [Pending.run_bind, Pending.run_lift]
        congr 1
        funext first
        cases first with
        | false => rfl
        | true =>
            simp only [↓reduceIte, Pending.run_bind, Pending.run_lift, Pending.run_call]
            cases n <;> rfl
      · rfl

theorem run_anyShared (id : Nat) :
    (anyShared c id).run (c.calls.answer (goalAt c) n) = Write.anyShared c (lower c n) id := by
  unfold anyShared Write.anyShared
  cases c.heap[id]? with
  | none => rfl
  | some cell =>
      simp only
      cases c.registry.tag? cell.type with
      | none => rfl
      | some tag =>
          simp only [Pending.run_bind, Pending.run_lift]
          congr 1
          funext first
          cases first with
          | false => rfl
          | true =>
              simp only [↓reduceIte, Pending.run_bind, Pending.run_lift, Pending.run_call]
              cases n <;> rfl

theorem run_byLayout {type : Ty} {layout : Layout} (found : c.registry.writer type = .ok layout)
    (v : Value) :
    (byLayout c type layout v).run (c.calls.answer (goalAt c) n) =
      Write.value c (lower c n) type v := by
  cases v with
  | list vs =>
      rw [Write.value, found]
      cases layout with
      | seq item | set item order =>
          simp only [byLayout, Pending.run_bind, Pending.run_lift, run_eachItem]
          rfl
      | map keyType valueType order =>
          simp only [byLayout, Pending.run_bind, Pending.run_lift, run_eachEntry]
          rfl
      | record types => exact run_fieldsInPlace types vs
      | nested types => cases n <;> rfl
      | _ => rfl
  | present v =>
      rw [Write.value, found]
      cases layout with
      | option item =>
          simp only [byLayout, Pending.run_bind, Pending.run_lift, Pending.run_call, answer_along]
          rfl
      | _ => rfl
  | object id =>
      rw [value_of_atomic (by trivial) found]
      cases layout with
      | shared content => exact run_shared content id
      | anyShared => exact run_anyShared id
      | _ => rfl
  | _ =>
      rw [value_of_atomic (by trivial) found]
      cases layout <;> rfl

theorem run_value (type : Ty) (v : Value) :
    (value c type v).run (c.calls.answer (goalAt c) n) = valueAt c n type v := by
  rw [valueAt_eq, value]
  cases found : c.registry.writer type with
  | ok layout => exact run_byLayout found v
  | error e =>
      cases v with
      | list vs | present v =>
          rw [Write.value, found]
          rfl
      | _ =>
          rw [value_eq_whole c _ type (by simp) (by simp), found]
          rfl

theorem answers (c : WriteContext) : c.calls.Answers (goalAt c) := by
  intro n goal
  cases goal with
  | value type v => exact run_value type v
  | fields types vs => exact run_eachField types vs
  | content id type v =>
      simp only [WriteContext.calls, body, goalAt, Pending.run_bind, Pending.run_lift]
      congr 1
      funext _
      exact run_value type v

end Turns

end Write

end Chronicle
