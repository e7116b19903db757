import Scaffold.Text.Pattern

/-! # What the replacement of matches leaves

A match of a pattern takes a stretch of the text of a known form. Where a replacement only drops elements of
what is matched, the replacement of all matches only drops elements of the text.
-/

namespace Scaffold.Text

variable {α β : Type} {droppable : α → Prop} {source output more other : List α}

/-- A text of which some elements, all of them droppable, are dropped. -/
inductive Thinned (droppable : α → Prop) : List α → List α → Prop
  | nil : Thinned droppable [] []
  | keep (x : α) {source output : List α} (rest : Thinned droppable source output) :
      Thinned droppable (x :: source) (x :: output)
  | drop {x : α} {source output : List α} (may : droppable x) (rest : Thinned droppable source output) :
      Thinned droppable (x :: source) output

namespace Thinned

theorem append (front : Thinned droppable source output) (back : Thinned droppable more other) :
    Thinned droppable (source ++ more) (output ++ other) := by
  induction front with
  | nil => exact back
  | keep x _ rest => exact .keep x rest
  | drop may _ rest => exact .drop may rest

theorem mono {other : α → Prop} (thinned : Thinned droppable source output) (may : ∀ x, droppable x → other x) :
    Thinned other source output := by
  induction thinned with
  | nil => exact .nil
  | keep x _ rest => exact .keep x rest
  | drop own _ rest => exact .drop (may _ own) rest

theorem trans (first : Thinned droppable source output) (second : Thinned droppable output more) :
    Thinned droppable source more := by
  induction first generalizing more with
  | nil => exact second
  | drop may _ rest => exact .drop may (rest second)
  | keep x _ rest =>
    cases second with
    | keep _ later => exact .keep x (rest later)
    | drop may later => exact .drop may (rest later)

theorem of_forall (may : ∀ x ∈ source, droppable x) : Thinned droppable source [] := by
  induction source with
  | nil => exact .nil
  | cons x rest drop => exact .drop (may x List.mem_cons_self) (drop fun y mem => may y (List.mem_cons_of_mem x mem))

theorem sublist (thinned : Thinned droppable source output) : output.Sublist source := by
  induction thinned with
  | nil => exact .slnil
  | keep x _ rest => exact rest.cons_cons x
  | @drop x _ _ _ _ rest => exact rest.cons x

/-- What may not be dropped is left. -/
theorem mem (thinned : Thinned droppable source output) {x : α} (member : x ∈ source) (stays : ¬ droppable x) :
    x ∈ output := by
  induction thinned with
  | nil => exact member
  | keep y _ rest =>
    rcases List.mem_cons.mp member with rfl | member
    · exact List.mem_cons_self
    · exact List.mem_cons_of_mem y (rest member)
  | drop may _ rest =>
    rcases List.mem_cons.mp member with rfl | member
    · exact absurd may stays
    · exact rest member

/-- What is left of the images of some elements are the images of what is left of them. -/
theorem exists_of_map {f : β → α} {items : List β} (thinned : Thinned droppable (items.map f) output) :
    ∃ left, Thinned (fun item => droppable (f item)) items left ∧ output = left.map f := by
  generalize same : items.map f = images at thinned
  induction thinned generalizing items with
  | nil =>
    rw [List.map_eq_nil_iff.mp same]
    exact ⟨[], .nil, rfl⟩
  | keep x _ rest =>
    obtain ⟨item, others, rfl, rfl, inner⟩ := List.map_eq_cons_iff.mp same
    obtain ⟨left, thinned, rfl⟩ := rest inner
    exact ⟨item :: left, .keep item thinned, rfl⟩
  | drop may _ rest =>
    obtain ⟨item, others, rfl, rfl, inner⟩ := List.map_eq_cons_iff.mp same
    obtain ⟨left, thinned, rfl⟩ := rest inner
    exact ⟨left, .drop may thinned, rfl⟩

end Thinned

namespace Pattern

/-- What a match of a pattern may take, without regard to what stands around it. -/
def Takes : Pattern α → List α → Prop
  | nothing, taken | notAfter _, taken | notBefore _, taken => taken = []
  | one accepts, taken => ∃ x, taken = [x] ∧ accepts x = true
  | many accepts, taken | few accepts, taken => ∀ x ∈ taken, accepts x = true
  | seq first second, taken => ∃ front back, taken = front ++ back ∧ first.Takes front ∧ second.Takes back
  | alt first second, taken => first.Takes taken ∨ second.Takes taken
  | star body, taken => ∃ parts : List (List α), taken = parts.flatten ∧ ∀ part ∈ parts, body.Takes part

theorem getLast?_append_or (front back : List α) (before : Option α) :
    (front ++ back).getLast?.or before = back.getLast?.or (front.getLast?.or before) := by
  rw [List.getLast?_append, Option.or_assoc]

/-- A run ends behind any of its accepted elements. -/
theorem mem_runEnds_iff {accepts : α → Bool} {before : Option α} {rest : List α} {next : Spot α} :
    next ∈ runEnds accepts before rest ↔
      ∃ taken, rest = taken ++ next.rest ∧ next.before = taken.getLast?.or before ∧ ∀ x ∈ taken, accepts x = true := by
  induction rest generalizing before with
  | nil =>
    rw [runEnds, List.mem_singleton]
    constructor
    · rintro rfl
      exact ⟨[], rfl, rfl, nofun⟩
    · rintro ⟨taken, split, last, -⟩
      obtain ⟨rfl, none⟩ := List.append_eq_nil_iff.mp split.symm
      cases next
      cases last
      cases none
      rfl
  | cons x rest later =>
    rw [runEnds, List.mem_cons]
    constructor
    · rintro (rfl | mem)
      · exact ⟨[], rfl, rfl, nofun⟩
      · split at mem
        · next accepted =>
          obtain ⟨taken, rfl, last, each⟩ := later.mp mem
          refine ⟨x :: taken, rfl, ?_, List.forall_mem_cons.mpr ⟨accepted, each⟩⟩
          rw [last, ← List.singleton_append, getLast?_append_or]
          rfl
        · cases mem
    · rintro ⟨taken, split, last, each⟩
      cases taken with
      | nil =>
        cases next
        cases last
        cases split
        exact .inl rfl
      | cons y taken =>
        obtain ⟨rfl, rfl⟩ := List.cons.inj split
        rw [if_pos (each x List.mem_cons_self)]
        rw [← List.singleton_append, getLast?_append_or] at last
        exact .inr (later.mpr ⟨taken, rfl, last, fun z mem => each z (List.mem_cons_of_mem _ mem)⟩)

private theorem takes_of_mem_starEnds {takes : List α → Prop} {step : Spot α → List (Spot α)}
    (each : ∀ spot next, next ∈ step spot →
      ∃ taken, spot.rest = taken ++ next.rest ∧ next.before = taken.getLast?.or spot.before ∧ takes taken) (fuel : Nat)
    {spot next : Spot α} (mem : next ∈ starEnds step fuel spot) :
    ∃ parts : List (List α), spot.rest = parts.flatten ++ next.rest ∧
      next.before = parts.flatten.getLast?.or spot.before ∧ ∀ part ∈ parts, takes part := by
  induction fuel generalizing spot with
  | zero =>
    rw [List.mem_singleton.mp mem]
    exact ⟨[], rfl, rfl, nofun⟩
  | succ fuel repeats =>
    rcases List.mem_append.mp mem with mem | mem
    · obtain ⟨between, first, mem⟩ := List.mem_flatMap.mp mem
      split at mem
      · obtain ⟨taken, eq, last, own⟩ := each _ _ first
        obtain ⟨parts, rest, final, others⟩ := repeats mem
        refine ⟨taken :: parts, ?_, ?_, List.forall_mem_cons.mpr ⟨own, others⟩⟩
        · rw [eq, rest, List.flatten_cons, List.append_assoc]
        · rw [final, last, List.flatten_cons, getLast?_append_or]
      · cases mem
    · rw [List.mem_singleton.mp mem]
      exact ⟨[], rfl, rfl, nofun⟩

/-- A match takes what stands between its place and its end. -/
theorem takes_of_mem_ends {pattern : Pattern α} {spot next : Spot α} (mem : next ∈ pattern.ends spot) :
    ∃ taken, spot.rest = taken ++ next.rest ∧ next.before = taken.getLast?.or spot.before ∧ pattern.Takes taken := by
  induction pattern generalizing spot next with
  | nothing =>
    rw [List.mem_singleton.mp mem]
    exact ⟨[], rfl, rfl, rfl⟩
  | one accepts =>
    obtain ⟨before, rest⟩ := spot
    cases rest with
    | nil => cases mem
    | cons x rest =>
      simp only [ends] at mem
      split at mem
      · next accepted =>
        rw [List.mem_singleton.mp mem]
        exact ⟨[x], rfl, rfl, x, rfl, accepted⟩
      · cases mem
  | many accepts => exact mem_runEnds_iff.mp (List.mem_reverse.mp mem)
  | few accepts => exact mem_runEnds_iff.mp mem
  | seq first second front back =>
    obtain ⟨between, firstMem, secondMem⟩ := List.mem_flatMap.mp mem
    obtain ⟨taken, eq, last, own⟩ := front firstMem
    obtain ⟨later, rest, final, others⟩ := back secondMem
    refine ⟨taken ++ later, by rw [eq, rest, List.append_assoc], ?_, taken, later, rfl, own, others⟩
    rw [final, last, getLast?_append_or]
  | alt first second left right =>
    rcases List.mem_append.mp mem with mem | mem
    · obtain ⟨taken, eq, last, own⟩ := left mem
      exact ⟨taken, eq, last, .inl own⟩
    · obtain ⟨taken, eq, last, own⟩ := right mem
      exact ⟨taken, eq, last, .inr own⟩
  | star body step =>
    obtain ⟨parts, eq, last, each⟩ := takes_of_mem_starEnds (fun _ _ => step) _ mem
    exact ⟨parts.flatten, eq, last, parts, rfl, each⟩
  | notAfter refuses =>
    simp only [ends] at mem
    split at mem
    · cases mem
    · rw [List.mem_singleton.mp mem]
      exact ⟨[], rfl, rfl, rfl⟩
  | notBefore body =>
    simp only [ends] at mem
    split at mem
    · rw [List.mem_singleton.mp mem]
      exact ⟨[], rfl, rfl, rfl⟩
    · cases mem

/-- The preferred match at a place takes a stretch that the pattern may take. -/
theorem takes_of_matchLength? {pattern : Pattern α} {before : Option α} {rest : List α} {length : Nat}
    (found : pattern.matchLength? before rest = some length) : pattern.Takes (rest.take length) := by
  unfold matchLength? at found
  obtain ⟨next, head, rfl⟩ := Option.map_eq_some_iff.mp found
  obtain ⟨taken, eq, -, takes⟩ := takes_of_mem_ends (List.mem_of_mem_head? head)
  dsimp only at eq
  rw [eq, List.length_append, Nat.add_sub_cancel, List.take_left]
  exact takes

/-- What holds of each match and its replacement holds of a text and what the replacement of matches makes of it, where it
holds of single elements and of texts that are put together. -/
theorem related_replaceFrom {relation : List α → List α → Prop} {pattern : Pattern α} {replacement : List α → List α}
    (nil : relation [] []) (single : ∀ x, relation [x] [x])
    (append : ∀ source output more other, relation source output → relation more other →
      relation (source ++ more) (output ++ other))
    (each : ∀ taken, pattern.Takes taken → relation taken (replacement taken)) (limit : Nat) (before : Option α)
    (skip : Nat) (text : List α) : relation (text.drop skip) (replaceFrom pattern replacement limit before skip text) := by
  have same (text : List α) : relation text text := by
    induction text with
    | nil => exact nil
    | cons x text same => exact append [x] [x] text text (single x) same
  induction text generalizing limit before skip with
  | nil => cases skip <;> cases limit <;> exact nil
  | cons x rest related =>
    cases skip with
    | succ skip => cases limit <;> exact related _ _ skip
    | zero =>
      cases limit with
      | zero => exact same _
      | succ limit =>
        rw [replaceFrom]
        split
        · next length found =>
          have taken := each _ (takes_of_matchLength? found)
          have split : (x :: rest).take (length + 1) ++ rest.drop length = x :: rest :=
            List.take_append_drop (length + 1) (x :: rest)
          have joined := append _ _ _ _ taken (related limit (some x) length)
          rwa [split] at joined
        · exact append [x] [x] _ _ (single x) (related _ _ 0)

/-- The replacement of all matches drops only what the replacement of each drops. -/
theorem thinned_replaceAll {pattern : Pattern α} {replacement : List α → List α}
    (each : ∀ taken, pattern.Takes taken → Thinned droppable taken (replacement taken)) (text : List α) :
    Thinned droppable text (pattern.replaceAll replacement text) :=
  related_replaceFrom .nil (fun x => .keep x .nil) (fun _ _ _ _ front back => front.append back) each _ none 0 text

end Pattern

end Scaffold.Text
