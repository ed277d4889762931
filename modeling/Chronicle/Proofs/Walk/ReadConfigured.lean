import Chronicle.Proofs.Registry.Honest
import Chronicle.Proofs.Walk.ReadSteps

/-!
# Reading under a sound configuration

Input can fail in many ways, but where every type on the way has a reader, and
fresh values can be made of the types that readers create, no failure is one of
configuration.  Which types are on the way is decided by the readers and, behind
polymorphic references, by tags in the input.  Nothing is assumed of the octets.
-/

namespace Chronicle

open Success

/-! ## Outcomes without certain errors -/

section Avoids

variable {σ α β : Type}

abbrev Configured (result : EStateM.Result WalkError σ α) : Prop :=
  Avoids (fun e => e.kind = .configuration) result

abbrev ConfiguredIn (result : EStateM.Result (WalkError × β) σ α) : Prop :=
  Avoids (fun failure => failure.1.kind = .configuration) result

end Avoids

/-! ## Single fields -/

namespace Reading

theorem raw_configured (n : Nat) (r : ByteReader) : Configured (raw n r) := by
  rw [raw, get_bind]
  cases splitExact? n r.rest with
  | none => exact .throw (by rintro ⟨⟩)
  | some parts => exact .bind (.of_ok rfl) fun _ _ _ => .pure _

theorem word_configured (r : ByteReader) : Configured (word r) :=
  .bind (raw_configured 4 r) fun _ _ _ => .pure _

theorem scalar_configured (k : Scalar) (r : ByteReader) : Configured (scalar k r) :=
  .bind (raw_configured _ r) fun _ _ _ => .pure _

theorem octet_configured (r : ByteReader) : Configured (octet r) := by
  refine .bind (raw_configured 1 r) fun bs t _ => ?_
  split
  · exact .pure _
  · exact .throw nofun

theorem bool_configured (r : ByteReader) : Configured (bool r) := by
  refine .bind (octet_configured r) fun b t _ => ?_
  split
  · exact .pure _
  · split
    · exact .pure _
    · exact .throw nofun

theorem length_configured (r : ByteReader) : Configured (length r) := by
  refine .bind (word_configured r) fun n t _ => ?_
  rw [get_bind]
  split
  · exact .throw nofun
  · exact .pure _

theorem sized_configured (r : ByteReader) : Configured (sized r) :=
  .bind (length_configured r) fun _ _ _ => raw_configured _ _

theorem text_configured (r : ByteReader) : Configured (text r) := by
  refine .bind (sized_configured r) fun bs t _ => ?_
  cases Utf8.decode? bs with
  | some s => exact .pure s
  | none => exact .throw nofun

end Reading

namespace Read

variable {α β : Type} {s : ReadState} {c : ReadContext} {lower : Lower}

theorem take_configured {act : Reading α} (configured : ∀ r, Configured (act r)) (s : ReadState) :
    Configured (take act s) := by
  have inner := configured s.input
  unfold take
  cases run : act s.input with
  | ok a input => trivial
  | error e input => exact inner.not_bad run

theorem keeping_configured {old : β} {act : Read α} (configured : Configured (act s)) :
    ConfiguredIn (keeping old act s) := by
  unfold keeping
  cases run : act s with
  | ok a t => trivial
  | error e t => exact configured.not_bad run

theorem listSoFar_configured {acc : Array Value} {act : Read α} (configured : Configured (act s)) :
    ConfiguredIn (listSoFar acc act s) := by
  unfold listSoFar
  cases run : act s with
  | ok a t => trivial
  | error e t => exact configured.not_bad run

theorem discarding_configured {act : Filling α α} (configured : ConfiguredIn (act s)) :
    Configured (discarding act s) := by
  unfold discarding
  cases run : act s with
  | ok a t => trivial
  | error e t => exact configured.not_bad run

theorem asRecord_configured {act : Filling (List Value) (List Value)}
    (configured : ConfiguredIn (act s)) : ConfiguredIn (asRecord act s) := by
  unfold asRecord
  cases run : act s with
  | ok a t => trivial
  | error e t => exact configured.not_bad run

theorem descend_configured {old : α} {act : Walker → Filling α α}
    (configured : ∀ walk, lower = some walk → ConfiguredIn (act walk s)) :
    ConfiguredIn (descend c lower old act s) := by
  cases lower with
  | none => exact .throw nofun
  | some walk => exact configured walk rfl

theorem marker_configured (s : ReadState) : Configured (marker s) := by
  refine .bind (take_configured Reading.octet_configured s) fun octet t _ => ?_
  split
  · refine .bind (take_configured Reading.word_configured t) fun found u _ => ?_
    rw [get_bind]
    split
    · exact .pure _
    · exact .throw nofun
  · split
    · refine .bind (take_configured Reading.word_configured t) fun number u _ => ?_
      rw [get_bind]
      cases u.bound[number]? with
      | some id => exact .pure _
      | none => exact .throw nofun
    · exact .throw nofun

theorem bind_number_configured (number id : Nat) (s : ReadState) :
    Configured (bind number id s) := by
  rw [bind, get_bind]
  by_cases next : number = nextNumber s
  · simp only [next, ne_eq, not_true_eq_false, ↓reduceIte]
    exact .of_ok rfl
  · simp only [next, ne_eq, not_false_eq_true, ↓reduceIte]
    exact .bind (.throw (by rintro ⟨⟩)) fun _ _ _ => .of_ok rfl

/-! ## Objects -/

def Walks (c : ReadContext) (walk : Walker) (type : Ty) : Prop :=
  ∀ old s, c.registry.Fits type old → ConfiguredIn (walk type old s)

variable {content : Ty}

theorem create_configured {walk : Walker} (makable : c.registry.Makable content)
    (walks : Walks c walk content) (s : ReadState) : Configured (create c walk content s) := by
  obtain ⟨blank, heap, made, fits⟩ := makable s.heap
  have blanked : make (c.registry.makeBlank content) s = .ok blank { s with heap } :=
    make_eq_ok.mpr ⟨heap, made, rfl⟩
  rw [create, bind_of_ok blanked]
  exact discarding_configured (walks blank _ fits)

theorem object_configured {number : Nat} (makable : c.registry.Makable content)
    (walks : ∀ walk, lower = some walk → Walks c walk content) (s : ReadState) :
    Configured (object c lower number content s) := by
  obtain ⟨blank, heap, made, fits⟩ := makable s.heap
  have blanked : make (c.registry.makeBlank content) s = .ok blank { s with heap } :=
    make_eq_ok.mpr ⟨heap, made, rfl⟩
  have placed : make (modifyGet fun h : Heap => h.allocate content blank) { s with heap } =
      .ok heap.size { s with heap := heap.push ⟨content, blank⟩ } := rfl
  rw [object, bind_of_ok blanked, bind_of_ok placed]
  refine .bind (bind_number_configured _ _ _) fun u t bound => .bind ?_ fun _ _ _ => .pure _
  obtain ⟨_, rfl⟩ := bind_number_eq_ok.mp bound
  have found : (heap.push ⟨content, blank⟩)[heap.size]? = some ⟨content, blank⟩ :=
    Array.getElem?_push_size
  have filled : ∀ t, ConfiguredIn (descend c lower blank (fun walk => walk content blank) t) :=
    fun t => descend_configured fun walk level => walks walk level blank t fits
  simp only [fillObject, found]
  split
  · trivial
  · next e v t run => exact (filled _).not_bad run

theorem shared_configured (makable : c.registry.Makable content)
    (walks : ∀ walk, lower = some walk → Walks c walk content) (s : ReadState) :
    Configured (shared c lower content s) := by
  refine .bind (marker_configured s) fun m t _ => ?_
  cases m with
  | fresh number => exact object_configured makable walks t
  | existing number id =>
      simp only [get_bind]
      cases t.heap[id]? with
      | none => exact .throw nofun
      | some cell =>
          simp only []
          split
          · exact .pure _
          · exact .throw nofun

theorem anyShared_configured (makable : ∀ content ∈ c.registry.tags, c.registry.Makable content)
    (walks : ∀ walk, lower = some walk → ∀ content ∈ c.registry.tags, Walks c walk content)
    (s : ReadState) : Configured (anyShared c lower s) := by
  refine .bind (marker_configured s) fun m t _ => ?_
  cases m with
  | existing number id => exact .pure _
  | fresh number =>
      refine .bind (take_configured Reading.word_configured t) fun tag u _ => ?_
      cases named : c.registry.ofTag? tag with
      | none => exact .throw nofun
      | some content =>
          have listed : content ∈ c.registry.tags := List.mem_of_getElem? named
          exact object_configured (makable content listed)
            (fun walk level => walks walk level content listed) u

theorem asset_configured (resolver : c.assets.isSome = true) (s : ReadState) :
    Configured (asset c content s) := by
  obtain ⟨assets, attached⟩ := Option.isSome_iff_exists.mp resolver
  refine .bind (take_configured Reading.text_configured s) fun path t _ => ?_
  simp only [attached]
  cases assets.load content path with
  | none => exact .throw nofun
  | some loaded =>
      simp only []
      split
      · exact .pure _
      · exact .throw nofun

theorem packed_configured (format : Plain.PackedFormat) (s : ReadState) :
    Configured (packed format s) := by
  refine .bind (take_configured Reading.sized_configured s) fun bs t _ => ?_
  cases format.decode bs with
  | ok d => exact .pure _
  | error reason => exact .throw nofun

/-! ## Lists -/

section Lists

variable {next nextKey nextValue : Read Value}

theorem items_configured (each : ∀ s, Configured (next s)) (count : Nat) (acc : Array Value)
    (s : ReadState) : ConfiguredIn (items next count acc s) := by
  induction count generalizing acc s with
  | zero => exact .pure _
  | succ count ih => exact .bind (listSoFar_configured (each s)) fun v t _ => ih _ t

theorem ascend_configured (container : String) (order : KeyOrder) (acc : Array Value) (key : Value)
    (s : ReadState) : Configured (ascend container order acc key s) := by
  unfold ascend
  cases acc.back? with
  | none => exact .pure _
  | some last =>
      simp only [get_bind]
      match order.compare s.heap s.filling last.orderingKey key with
      | .found .lt => exact .pure _
      | .found .eq | .found .gt | .borrowed | .endless => exact .throw nofun

theorem ascendingItems_configured {container : String} {order : KeyOrder}
    (each : ∀ s, Configured (next s)) (count : Nat) (acc : Array Value) (s : ReadState) :
    ConfiguredIn (ascendingItems container order next count acc s) := by
  induction count generalizing acc s with
  | zero => exact .pure _
  | succ count ih =>
      refine .bind (listSoFar_configured (each s)) fun v t _ => ?_
      exact .bind (listSoFar_configured (ascend_configured container order acc v t))
        fun _ u _ => ih _ u

theorem ascendingEntries_configured {container : String} {order : KeyOrder}
    (keys : ∀ s, Configured (nextKey s)) (values : ∀ s, Configured (nextValue s)) (count : Nat)
    (acc : Array Value) (s : ReadState) :
    ConfiguredIn (ascendingEntries container order nextKey nextValue count acc s) := by
  induction count generalizing acc s with
  | zero => exact .pure _
  | succ count ih =>
      refine .bind (listSoFar_configured (keys s)) fun k t _ => ?_
      refine .bind
        (listSoFar_configured (ascend_configured container order acc k t)) fun _ u _ => ?_
      exact .bind (listSoFar_configured (values u)) fun v w _ => ih _ w

end Lists

theorem eachField_configured {walk : Walker} {types : List Ty} {olds : List Value}
    (fits : c.registry.FitsAll types olds)
    (each : ∀ type ∈ types, ∀ old ∈ olds, ∀ s, c.registry.Fits type old →
      ConfiguredIn (walk type old s)) (s : ReadState) :
    ConfiguredIn (eachField walk types olds s) := by
  induction olds generalizing types s with
  | nil =>
      cases fits
      exact .pure _
  | cons old olds ih =>
      cases fits with
      | @cons type types _ _ first rest =>
          have inner := each type List.mem_cons_self old List.mem_cons_self s first
          rw [eachField_cons]
          split
          · next e v t run => exact inner.not_bad run
          · next v t run =>
              have tail := ih rest (fun type member old inside =>
                each type (List.mem_cons_of_mem _ member) old (List.mem_cons_of_mem _ inside)) t
              split
              · next e vs u run => exact (tail.not_bad run :)
              · trivial

end Read

/-! ## Walks -/

/-- A host reads a type by a layout for which it has all it needs. -/
structure ReadContext.Serves (c : ReadContext) (type : Ty) (layout : Layout) : Prop where
  reader_eq : c.registry.reader type = .ok layout
  admitted : ¬ layout.IsRefused
  makes : ∀ s ∈ layout.created, c.registry.Makable s
  contents : layout = .anyShared → ∀ s ∈ c.registry.tags, c.registry.Makable s
  resolver : ∀ content, layout = .asset content → c.assets.isSome = true

def ReadContext.Supports (c : ReadContext) (type : Ty) : Prop :=
  ∀ s, c.registry.Leads type s → ∃ layout, c.Serves s layout

namespace ReadContext.Supports

variable {c : ReadContext} {type : Ty}

theorem component (supports : c.Supports type) {layout : Layout} {s : Ty}
    (found : c.registry.reader type = .ok layout) (member : s ∈ layout.components) :
    c.Supports s :=
  fun u leads => supports u (.trans (.component .self found member) leads)

theorem tagged (supports : c.Supports type) {s : Ty}
    (found : c.registry.reader type = .ok .anyShared) (member : s ∈ c.registry.tags) :
    c.Supports s :=
  fun u leads => supports u (.trans (.tagged .self found member) leads)

end ReadContext.Supports

namespace Read

variable {c : ReadContext} {lower : Lower} {fresh : Ty → Read Value} {type : Ty} {layout : Layout}

/-- One step of the walk, by layout: given that fresh values and the walk one
level deeper do not fail by configuration. -/
theorem byLayout_configured (serves : c.Serves type layout)
    (unlike : ∀ types, layout ≠ .record types)
    (parts : ∀ item ∈ layout.created, ∀ s, Configured (fresh item s))
    (deeper : ∀ walk, lower = some walk → ∀ content,
      content ∈ layout.components ∨ layout = .anyShared ∧ content ∈ c.registry.tags →
      Walks c walk content)
    {old : Value} (fits : c.registry.Fits type old) (s : ReadState) :
    ConfiguredIn (byLayout c lower fresh type old layout s) := by
  have counted : ConfiguredIn (keeping old (take Reading.length) s) :=
    keeping_configured (take_configured Reading.length_configured s)
  have leaf : ∀ {α : Type} {act : Reading α} (f : α → Value), (∀ r, Configured (act r)) →
      ConfiguredIn ((do return f (← keeping old (take act))) s) :=
    fun f field => .bind (keeping_configured (take_configured field s)) fun _ _ _ => .pure _
  cases layout with
  | nothing => exact .pure _
  | bool => exact leaf .bool Reading.bool_configured
  | scalar k => exact leaf .int (Reading.scalar_configured k)
  | text => exact leaf .text Reading.text_configured
  | octets => exact leaf .bytes Reading.sized_configured
  | counter => exact leaf (fun _ => old) Reading.word_configured
  | lowOctet => exact leaf (fun n => .int (n % 256 : Nat)) Reading.word_configured
  | seq item =>
      exact .bind counted fun count t _ =>
        items_configured (parts item (List.mem_singleton_self item)) count #[] t
  | set item order =>
      exact .bind counted fun count t _ =>
        ascendingItems_configured (parts item (List.mem_singleton_self item)) count #[] t
  | map keyType valueType order =>
      exact .bind counted fun count t _ => ascendingEntries_configured
        (parts keyType List.mem_cons_self)
        (parts valueType (List.mem_cons_of_mem _ List.mem_cons_self)) count #[] t
  | option item =>
      refine keeping_configured (.bind (take_configured Reading.octet_configured s) fun b t _ => ?_)
      split
      · exact .pure _
      · split
        · exact .bind (parts item (List.mem_singleton_self item) t) fun _ _ _ => .pure _
        · exact .throw nofun
  | nested types =>
      obtain ⟨olds, rfl, all⟩ := fits.fieldsAll serves.reader_eq rfl
      refine descend_configured fun walk level => asRecord_configured ?_
      exact eachField_configured all
        (fun type member old _ s => deeper walk level type (.inl member) old s) s
  | shared content =>
      exact keeping_configured (shared_configured
        (serves.makes content (List.mem_singleton_self content))
        (fun walk level => deeper walk level content (.inl (List.mem_singleton_self content))) s)
  | anyShared =>
      exact keeping_configured (anyShared_configured (serves.contents rfl)
        (fun walk level content listed => deeper walk level content (.inr ⟨rfl, listed⟩)) s)
  | asset content => exact keeping_configured (asset_configured (serves.resolver content rfl) s)
  | packed format => exact keeping_configured (packed_configured format s)
  | record types => exact absurd rfl (unlike types)
  | refused container alternative => exact absurd trivial serves.admitted

/-- A walk on one level, given that fresh values and walks one level deeper do
not fail by configuration. -/
theorem inPlace_configured (supports : c.Supports type)
    (parts : ∀ item, c.Supports item → c.registry.Makable item → ∀ s, Configured (fresh item s))
    (deeper : ∀ walk, lower = some walk → ∀ content, c.Supports content → Walks c walk content) :
    Walks c (inPlace c lower fresh) type := by
  intro old
  induction size : sizeOf old using Nat.strongRecOn generalizing type old with
  | ind k ih =>
      intro s fits
      obtain ⟨layout, serves⟩ := supports type .self
      by_cases record : ∃ types, layout = .record types
      · obtain ⟨types, rfl⟩ := record
        obtain ⟨olds, rfl, all⟩ := fits.fieldsAll serves.reader_eq rfl
        rw [inPlace_record_eq serves.reader_eq]
        refine asRecord_configured (eachField_configured all (fun type' member old' inside => ?_) s)
        have smaller := List.sizeOf_lt_of_mem inside
        rw [Value.list.sizeOf_spec] at size
        exact ih (sizeOf old') (by omega) (supports.component serves.reader_eq member) old' rfl
      · have unlike : ∀ types, layout ≠ .record types := fun types same => record ⟨types, same⟩
        rw [inPlace_eq_byLayout serves.reader_eq unlike]
        refine byLayout_configured serves unlike (fun item member => ?_)
          (fun walk level content leads => ?_) fits s
        · refine parts item (supports.component serves.reader_eq ?_) (serves.makes item member)
          unfold Layout.created at member
          split at member
          · cases member
          · exact member
        · refine deeper walk level content ?_
          rcases leads with member | ⟨rfl, listed⟩
          · exact supports.component serves.reader_eq member
          · exact supports.tagged serves.reader_eq listed

theorem value_configured
    (deeper : ∀ walk, lower = some walk → ∀ content, c.Supports content → Walks c walk content)
    (octets : Nat) (supports : c.Supports type) : Walks c (value c lower octets) type := by
  induction octets generalizing type with
  | zero =>
      rw [value_eq]
      exact inPlace_configured supports (fun _ _ _ s => .throw nofun) deeper
  | succ octets ih =>
      rw [value_eq]
      exact inPlace_configured supports
        (fun item inner makable s => create_configured makable (ih inner) s) deeper

theorem valueAt_configured (n : Nat) (supports : c.Supports type) : Walks c (valueAt c n) type := by
  induction n generalizing type with
  | zero =>
      intro old s fits
      rw [valueAt_eq]
      have bottom : ∀ walk, lowerAt c 0 = some walk → ∀ content, c.Supports content →
          Walks c walk content := fun walk level => by cases level
      exact value_configured bottom s.input.remaining supports old s fits
  | succ n ih =>
      intro old s fits
      have deeper : ∀ walk, lowerAt c (n + 1) = some walk → ∀ content, c.Supports content →
          Walks c walk content := by
        rintro walk ⟨⟩ content inner
        exact ih inner
      rw [valueAt_eq]
      exact value_configured deeper s.input.remaining supports old s fits

end Read

theorem Registry.kind_of_restore {r : Registry} {o : WalkOptions} {type : Ty} {bs : Bytes}
    {e : WalkError} (supports : (r.readContext o).Supports type) (makable : r.Makable type)
    (failed : r.restore o type bs = .error e) : e.kind ≠ .configuration := by
  have read : Configured (r.readGraph o type bs) :=
    Read.create_configured makable (Read.valueAt_configured o.limits.maxDepth supports) _
  unfold restore at failed
  cases run : r.readGraph o type bs with
  | error e' s =>
      rw [run] at failed
      obtain rfl := Except.error.inj failed
      exact read.not_bad run
  | ok root s =>
      rw [run] at failed
      by_cases used : s.input.rest.isEmpty = true
      · simp [used] at failed
      · simp only [used, Bool.false_eq_true, ↓reduceIte] at failed
        obtain rfl := Except.error.inj failed
        exact nofun

end Chronicle
