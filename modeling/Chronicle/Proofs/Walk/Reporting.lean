import Chronicle.Proofs.Walk.Advancing

/-!
# What reading never reports

Objects are made by the walk that reads them, so none can be in someone else's
hands, and no walk reports that one is.  Steps that compare no keys do not report
that keys cannot be compared.
-/

namespace Chronicle

open Success

def WalkError.IsClash : WalkError → Prop
  | .alreadyBorrowed _ => True
  | _ => False

section

variable {bad : WalkError → Prop} (objects : ∀ e, bad e → e.TellsOfObjects)
include objects

theorem Reading.rules_avoids : Rules fun act => ∀ r, Avoids bad (act r) where
  pure _ _ := trivial
  throw e other _ found := other (objects e found)
  bind first rest r := (first r).bind fun a t _ => rest a t
  limited rest r := rest r.limit r
  raw n r := by
    cases run : raw n r with
    | ok bs t => trivial
    | error e t =>
        obtain ⟨-, rfl, -⟩ := raw_eq_error.mp run
        exact objects _

theorem Registry.avoids_makeBlank (r : Registry) (type : Ty) (h : Heap) :
    Avoids bad (r.makeBlank type h) := by
  rw [makeBlank.eq_def]
  refine .bind ?_ fun way t _ => ?_
  · cases failed : r.initializer type with
    | error e => exact fun found => not_tellsOfObjects_of_initializer failed (objects e found)
    | ok way => trivial
  · cases way with
    | template t => trivial
    | refused container alternative => exact objects _
    | placeholder =>
        cases type with
        | shared content =>
            exact .bind (avoids_makeBlank r content _) fun blank u _ => trivial
        | _ => exact objects _
termination_by type

namespace Read

variable {c : ReadContext} {lower : Lower}

def Untold (bad : WalkError → Prop) {ε α : Type} (cause : ε → WalkError)
    (act : EStateM ε ReadState α) : Prop :=
  ∀ s, Avoids (fun e => bad (cause e)) (act s)

theorem rules_untold : Rules (Untold bad) where
  pure _ _ := trivial
  throw _ other _ found := other (objects _ found)
  bind first rest s := (first s).bind fun a t _ => rest a t
  relabel same holds s := by
    have inner := holds s
    unfold relabel
    split
    · trivial
    · next e _ run =>
        rw [Avoids, same e]
        exact inner.not_bad run
  look _ holds s := holds s s
  field field s := by
    have inner := (Reading.rules_avoids objects).field field s.input
    unfold take
    split
    · trivial
    · next run => exact inner.not_bad run

theorem untold_marker : Untold bad id marker := by
  have rules := rules_untold objects
  refine rules.bind (rules.field .octet) fun octet => ?_
  split
  · refine rules.bind (rules.field .word) fun found s => ?_
    rw [get_bind]
    split
    · exact .pure _
    · exact .throw (objects _)
  · split
    · refine rules.bind (rules.field .word) fun number s => ?_
      rw [get_bind]
      cases s.bound[number]? with
      | some id => exact .pure _
      | none => exact .throw (objects _)
    · exact rules.throw _ not_false

theorem untold_blank (type : Ty) : Untold bad id (make (c.registry.makeBlank type)) := by
  intro s
  have inner := c.registry.avoids_makeBlank objects type s.heap
  unfold make
  split
  · trivial
  · next run => exact inner.not_bad run

theorem untold_announce (number : Nat) (content : Ty) :
    Untold bad id (announce c number content) := by
  intro s
  have inner := c.registry.avoids_makeBlank objects content s.heap
  rw [announce_eq]
  cases made : c.registry.makeBlank content s.heap with
  | error e heap => exact inner.not_bad made
  | ok blank heap =>
      simp only
      split
      · trivial
      · exact objects _

theorem untold_object (number : Nat) (content : Ty)
    (deeper : ∀ walk, lower = some walk → ∀ old, Untold bad Prod.fst (walk content old)) :
    Untold bad id (object c lower number content) := by
  intro s
  have announced := untold_announce (c := c) objects number content s
  rw [object_eq]
  cases run : announce c number content s with
  | error e t => exact announced.not_bad run
  | ok new t =>
      have inner : Untold bad Prod.fst (descend c lower new.2 fun walk => walk content new.2) := by
        cases lower with
        | none => exact fun _ => objects _
        | some walk => exact deeper walk rfl new.2
      simp only
      split
      · trivial
      · next run => exact (inner _).not_bad run

end Read

end

namespace Read

theorem tellsOfObjects_of_isClash {e : WalkError} (clash : e.IsClash) : e.TellsOfObjects := by
  cases e with
  | alreadyBorrowed type => trivial
  | _ => exact clash.elim

theorem not_isClash_of_verdict {container : String} {found : Comparison} {e : WalkError}
    (failed : verdict container found = .error e) : ¬ e.IsClash := by
  rcases found with (_ | _ | _) | _ | _ <;> cases failed <;> exact not_false

theorem law_unclashing (c : ReadContext) : Law c (Untold WalkError.IsClash) :=
  have objects : ∀ e : WalkError, e.IsClash → e.TellsOfObjects :=
    fun _ => tellsOfObjects_of_isClash
  { rules_untold objects with
    ascend := (rules_untold objects).ascend fun _ _ _ failed _ => not_isClash_of_verdict failed
    marker := untold_marker objects
    blank := untold_blank objects
    object := untold_object objects }

theorem unclashing_valueAt (c : ReadContext) :
    ∀ (n : Nat) (type : Ty) (old : Value),
      Untold WalkError.IsClash Prod.fst (valueAt c n type old) :=
  everyLevel (Q := fun walk => ∀ type old, Untold WalkError.IsClash Prod.fst (walk type old))
    fun n deeper type old s => by
      rw [valueAt_eq]
      exact (law_unclashing c).value deeper _ type old s

end Read

theorem Registry.not_isClash_of_restore {r : Registry} {o : WalkOptions} {type : Ty} {bs : Bytes}
    {e : WalkError} (failed : r.restore o type bs = .error e) : ¬ e.IsClash := by
  have read : Avoids WalkError.IsClash (r.readGraph o type bs) :=
    (Read.law_unclashing (r.readContext o)).create
      (fun blank => Read.unclashing_valueAt _ o.limits.maxDepth type blank) _
  unfold restore at failed
  split at failed
  · next run =>
      cases failed
      exact read.not_bad run
  · split at failed <;> cases failed
    exact not_false

end Chronicle
