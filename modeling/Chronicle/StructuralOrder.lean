import Chronicle.KeyOrder

/-!
# The structural order

The order that a type has unless it is given another one: numbers by size,
texts by code point, an absent value first, lists and records part by part, and
references by what they lead to.
-/

namespace Chronicle

namespace Value

section

variable (objects : Nat → Nat → Comparison)

mutual

def compareBy : Value → Value → Comparison
  | .bool a, .bool b => .found (compare a b)
  | .int a, .int b => .found (compare a b)
  | .text a, .text b => .found (compare a b)
  | .bytes a, .bytes b => .found (compare a b)
  | .present a, .present b => compareBy a b
  | .list as, .list bs => compareAllBy as bs
  | .entry k v, .entry k' v' => (compareBy k k').lex fun _ => compareBy v v'
  | .object a, .object b => objects a b
  | a, b => .found (compare a.rank b.rank)

def compareAllBy : List Value → List Value → Comparison
  | [], [] => .found .eq
  | [], _ :: _ => .found .lt
  | _ :: _, [] => .found .gt
  | a :: as, b :: bs => (compareBy a b).lex fun _ => compareAllBy as bs

end

theorem compareBy_of_rank_ne {a b : Value} (apart : a.rank ≠ b.rank) :
    compareBy objects a b = .found (compare a.rank b.rank) := by
  cases a <;> cases b <;> first | rfl | exact absurd rfl apart

end

variable {objects objects' : Nat → Nat → Comparison}

/-! ## What depends on the order of objects -/

section

variable (stays : Comparison → Prop)

mutual

/-- What stays when objects are compared stays when values are. -/
theorem compareBy_mono (found : ∀ o, stays (.found o))
    (more : ∀ a b, stays (objects a b) → objects' a b = objects a b) (v w : Value)
    (stay : stays (v.compareBy objects w)) : v.compareBy objects' w = v.compareBy objects w := by
  by_cases same : v.rank = w.rank
  · match v, w, same with
    | .present v, .present w, _ => exact compareBy_mono found more v w stay
    | .list vs, .list ws, _ => exact compareAllBy_mono found more vs ws stay
    | .entry k v, .entry k' w, _ =>
      exact Comparison.lex_congr found (compareBy_mono found more k k')
        (compareBy_mono found more v w) stay
    | .object a, .object b, _ => exact more a b stay
    | .bool _, .bool _, _ | .int _, .int _, _ | .text _, .text _, _ | .bytes _, .bytes _, _
    | .unit, .unit, _ | .plain _, .plain _, _ | .absent, .absent, _ | .nothing, .nothing, _
    | .asset _, .asset _, _ => rfl
  · rw [compareBy_of_rank_ne _ same, compareBy_of_rank_ne _ same]

theorem compareAllBy_mono (found : ∀ o, stays (.found o))
    (more : ∀ a b, stays (objects a b) → objects' a b = objects a b) (vs ws : List Value)
    (stay : stays (compareAllBy objects vs ws)) :
    compareAllBy objects' vs ws = compareAllBy objects vs ws := by
  match vs, ws with
  | [], [] | [], _ :: _ | _ :: _, [] => rfl
  | v :: vs, w :: ws =>
    exact Comparison.lex_congr found (compareBy_mono found more v w)
      (compareAllBy_mono found more vs ws) stay

end

end

mutual

/-- Only the objects that the two values refer to matter. -/
theorem compareBy_congr (v w : Value)
    (same : ∀ a ∈ v.references, ∀ b ∈ w.references, objects a b = objects' a b) :
    v.compareBy objects w = v.compareBy objects' w := by
  by_cases shape : v.rank = w.rank
  · match v, w, shape with
    | .present v, .present w, _ => exact compareBy_congr v w same
    | .list vs, .list ws, _ => exact compareAllBy_congr vs ws same
    | .entry k v, .entry k' w, _ =>
      have keys := compareBy_congr k k' fun a first b second =>
        same a (List.mem_append_left _ first) b (List.mem_append_left _ second)
      have values := compareBy_congr v w fun a first b second =>
        same a (List.mem_append_right _ first) b (List.mem_append_right _ second)
      rw [compareBy, compareBy, keys, values]
    | .object a, .object b, _ => exact same a List.mem_cons_self b List.mem_cons_self
    | .bool _, .bool _, _ | .int _, .int _, _ | .text _, .text _, _ | .bytes _, .bytes _, _
    | .unit, .unit, _ | .plain _, .plain _, _ | .absent, .absent, _ | .nothing, .nothing, _
    | .asset _, .asset _, _ => rfl
  · rw [compareBy_of_rank_ne _ shape, compareBy_of_rank_ne _ shape]

theorem compareAllBy_congr (vs ws : List Value)
    (same : ∀ a ∈ referencesAll vs, ∀ b ∈ referencesAll ws, objects a b = objects' a b) :
    compareAllBy objects vs ws = compareAllBy objects' vs ws := by
  match vs, ws with
  | [], [] | [], _ :: _ | _ :: _, [] => rfl
  | v :: vs, w :: ws =>
    have head := compareBy_congr v w fun a first b second =>
      same a (List.mem_append_left _ first) b (List.mem_append_left _ second)
    have tail := compareAllBy_congr vs ws fun a first b second =>
      same a (List.mem_append_right _ first) b (List.mem_append_right _ second)
    rw [compareAllBy, compareAllBy, head, tail]

end

/-! ## The laws -/

mutual

theorem swaps_compareBy (swaps : ∀ a b, Comparison.Swaps objects a b) (v w : Value) :
    Comparison.Swaps (compareBy objects) v w := by
  intro o run
  by_cases same : v.rank = w.rank
  · match v, w, same with
    | .bool a, .bool b, _ => exact Comparison.swaps_found compare a b o run
    | .int a, .int b, _ => exact Comparison.swaps_found compare a b o run
    | .text a, .text b, _ => exact Comparison.swaps_found compare a b o run
    | .bytes a, .bytes b, _ => exact Comparison.swaps_found compare a b o run
    | .present v, .present w, _ => exact swaps_compareBy swaps v w o run
    | .list vs, .list ws, _ => exact swaps_compareAllBy swaps vs ws o run
    | .entry k v, .entry k' w, _ =>
      exact Comparison.Swaps.lex (swaps_compareBy swaps k k') (swaps_compareBy swaps v w) run
    | .object a, .object b, _ => exact swaps a b o run
    | .unit, .unit, _ | .plain _, .plain _, _ | .absent, .absent, _ | .nothing, .nothing, _
    | .asset _, .asset _, _ =>
      obtain rfl := Comparison.found.inj run
      rfl
  · rw [compareBy_of_rank_ne _ same] at run
    rw [compareBy_of_rank_ne _ (Ne.symm same)]
    exact Comparison.swaps_found compare v.rank w.rank o run

theorem swaps_compareAllBy (swaps : ∀ a b, Comparison.Swaps objects a b) (vs ws : List Value) :
    Comparison.Swaps (compareAllBy objects) vs ws := by
  intro o run
  match vs, ws with
  | [], [] | [], _ :: _ | _ :: _, [] =>
    obtain rfl := Comparison.found.inj run
    rfl
  | v :: vs, w :: ws =>
    exact Comparison.Swaps.lex (swaps_compareBy swaps v w) (swaps_compareAllBy swaps vs ws) run

end

theorem rank_le_of_compareBy {v w : Value} {o : Ordering}
    (run : v.compareBy objects w = .found o) (le : o.isLE) : v.rank ≤ w.rank := by
  by_cases same : v.rank = w.rank
  · exact Nat.le_of_eq same
  · rw [compareBy_of_rank_ne objects same] at run
    obtain rfl := Comparison.found.inj run
    exact Nat.isLE_compare.mp le

/-- Values of different shapes join because their ranks do. -/
theorem joins_of_rank_ne {u v w : Value} (apart : ¬ (u.rank = v.rank ∧ v.rank = w.rank)) :
    Comparison.Joins (compareBy objects) u v w := by
  intro o o' run run' le le'
  have first := rank_le_of_compareBy run le
  have second := rank_le_of_compareBy run' le'
  have less : u.rank < w.rank := by omega
  have found : u.compareBy objects w = .found .lt := by
    rw [compareBy_of_rank_ne objects (Nat.ne_of_lt less), Nat.compare_eq_lt.mpr less]
  rw [found]
  by_cases same : u.rank = v.rank
  · have below : v.rank < w.rank := by omega
    rw [compareBy_of_rank_ne objects (Nat.ne_of_lt below), Nat.compare_eq_lt.mpr below] at run'
    obtain rfl := Comparison.found.inj run'
    cases o <;> first | rfl | contradiction
  · have below : u.rank < v.rank := by omega
    rw [compareBy_of_rank_ne objects same, Nat.compare_eq_lt.mpr below] at run
    obtain rfl := Comparison.found.inj run
    rfl

mutual

theorem joins_compareBy (joins : ∀ a b c, Comparison.Joins objects a b c) (u v w : Value) :
    Comparison.Joins (compareBy objects) u v w := by
  by_cases same : u.rank = v.rank ∧ v.rank = w.rank
  · intro o o' run run' le le'
    match u, v, w, same.1, same.2 with
    | .bool a, .bool b, .bool c, _, _ =>
      exact Comparison.joins_found compare a b c o o' run run' le le'
    | .int a, .int b, .int c, _, _ =>
      exact Comparison.joins_found compare a b c o o' run run' le le'
    | .text a, .text b, .text c, _, _ =>
      exact Comparison.joins_found compare a b c o o' run run' le le'
    | .bytes a, .bytes b, .bytes c, _, _ =>
      exact Comparison.joins_found compare a b c o o' run run' le le'
    | .present u, .present v, .present w, _, _ =>
      exact joins_compareBy joins u v w o o' run run' le le'
    | .list us, .list vs, .list ws, _, _ =>
      exact joins_compareAllBy joins us vs ws o o' run run' le le'
    | .entry k₁ u, .entry k₂ v, .entry k₃ w, _, _ =>
      exact Comparison.Joins.lex (joins_compareBy joins k₁ k₂ k₃) (joins_compareBy joins u v w)
        run run' le le'
    | .object a, .object b, .object c, _, _ => exact joins a b c o o' run run' le le'
    | .unit, .unit, .unit, _, _ | .plain _, .plain _, .plain _, _, _
    | .absent, .absent, .absent, _, _ | .nothing, .nothing, .nothing, _, _
    | .asset _, .asset _, .asset _, _, _ =>
      obtain rfl := Comparison.found.inj run
      obtain rfl := Comparison.found.inj run'
      rfl
  · exact joins_of_rank_ne same

theorem joins_compareAllBy (joins : ∀ a b c, Comparison.Joins objects a b c)
    (us vs ws : List Value) : Comparison.Joins (compareAllBy objects) us vs ws := by
  intro o o' run run' le le'
  match us, vs, ws with
  | [], [], [] | [], [], _ :: _ =>
    obtain rfl := Comparison.found.inj run
    obtain rfl := Comparison.found.inj run'
    rfl
  | [], _ :: _, _ :: _ =>
    obtain rfl := Comparison.found.inj run
    rfl
  | _ :: _, [], _ =>
    obtain rfl := Comparison.found.inj run
    contradiction
  | _, _ :: _, [] =>
    obtain rfl := Comparison.found.inj run'
    contradiction
  | u :: us, v :: vs, w :: ws =>
    exact Comparison.Joins.lex (joins_compareBy joins u v w) (joins_compareAllBy joins us vs ws)
      run run' le le'

end

end Value

/-! ## References by what they lead to -/

def Heap.readable? (h : Heap) (filling : List Nat) (id : Nat) : Option Value :=
  if id ∈ filling then none else h[id]?.map Cell.content

theorem Heap.readable?_eq_some {h : Heap} {filling : List Nat} {id : Nat} {v : Value} :
    h.readable? filling id = some v ↔
      id ∉ filling ∧ ∃ cell, h[id]? = some cell ∧ cell.content = v := by
  by_cases member : id ∈ filling <;> simp [Heap.readable?, member]

section

variable {h h' : Heap} (same : ∀ id < h.size, h'[id]? = h[id]?)

include same

theorem Heap.size_le_of_keeps : h.size ≤ h'.size := by
  by_cases empty : h.size = 0
  · omega
  · have within : h.size - 1 < h.size := by omega
    have last := (same _ within).trans (Array.getElem?_eq_getElem within)
    obtain ⟨inside, -⟩ := Array.getElem?_eq_some_iff.mp last
    omega

theorem Heap.readable?_of_keeps {filling : List Nat} (id : Nat) (v : Value)
    (found : h.readable? filling id = some v) : h'.readable? filling id = some v := by
  obtain ⟨free, cell, there, rfl⟩ := Heap.readable?_eq_some.mp found
  obtain ⟨inside, -⟩ := Array.getElem?_eq_some_iff.mp there
  exact Heap.readable?_eq_some.mpr ⟨free, cell, (same id inside).trans there, rfl⟩

end

/-- Compare two objects by their contents, which may lead to other objects, for
a number of levels. -/
def compareObjects (contents : Nat → Option Value) : Nat → Nat → Nat → Comparison
  | 0, a, b =>
      if (contents a).isSome && (contents b).isSome then .endless else .borrowed
  | levels + 1, a, b =>
      match contents a, contents b with
      | some v, some w => v.compareBy (compareObjects contents levels) w
      | _, _ => .borrowed

variable {contents contents' : Nat → Option Value}

theorem compareObjects_mono (more : ∀ id v, contents id = some v → contents' id = some v)
    {levels levels' : Nat} (enough : levels ≤ levels') (a b : Nat)
    (found : (compareObjects contents levels a b).IsFound) :
    compareObjects contents' levels' a b = compareObjects contents levels a b := by
  induction levels generalizing levels' a b with
  | zero =>
    rw [compareObjects] at found
    split at found <;> exact found.elim
  | succ levels ih =>
    obtain ⟨levels', rfl⟩ : ∃ n, levels' = n + 1 := ⟨levels' - 1, by omega⟩
    rw [compareObjects] at found ⊢
    split at found
    case h_1 v w left right =>
      rw [compareObjects, left, right, more a v left, more b w right]
      exact v.compareBy_mono Comparison.IsFound (fun _ => trivial)
        (ih (Nat.le_of_succ_le_succ enough)) w found
    case h_2 => exact found.elim

theorem swaps_compareObjects (levels a b : Nat) :
    Comparison.Swaps (compareObjects contents levels) a b := by
  induction levels generalizing a b with
  | zero =>
    intro o run
    rw [compareObjects] at run
    split at run <;> contradiction
  | succ levels ih =>
    intro o run
    rw [compareObjects] at run ⊢
    split at run
    case h_1 v w left right =>
      rw [left, right]
      exact v.swaps_compareBy ih w o run
    case h_2 => contradiction

theorem joins_compareObjects (levels a b c : Nat) :
    Comparison.Joins (compareObjects contents levels) a b c := by
  induction levels generalizing a b c with
  | zero =>
    intro o o' run
    rw [compareObjects] at run
    split at run <;> contradiction
  | succ levels ih =>
    intro o o' run run' le le'
    rw [compareObjects] at run run' ⊢
    split at run
    case h_1 u v first second =>
      rw [second] at run'
      split at run'
      case h_1 v' w same third =>
        obtain rfl := Option.some.inj same
        rw [first, third]
        exact u.joins_compareBy ih v w o o' run run' le le'
      case h_2 => contradiction
    case h_2 => contradiction

/-- The order that derives from the parts of a value.  There are no more pairs of
objects than the square of their number, so a comparison that passes through more
comes back to one of them. -/
def KeyOrder.structural : KeyOrder where
  compare h filling :=
    Value.compareBy (compareObjects (h.readable? filling) (h.size * h.size))
  swap := Value.swaps_compareBy (swaps_compareObjects _) _ _ _
  trans first second :=
    Value.joins_compareBy (joins_compareObjects _) _ _ _ _ _ first second rfl rfl
  keeps {h h' filling v w _} same run :=
    have grown := Heap.size_le_of_keeps same
    have stays : Comparison.IsFound _ := run ▸ trivial
    (v.compareBy_mono Comparison.IsFound (fun _ => trivial)
      (compareObjects_mono (Heap.readable?_of_keeps same) (Nat.mul_le_mul grown grown)) w
      stays).trans run
  closed {h filling v w} left right :=
    v.compareBy_congr w (by simp [left])

end Chronicle
