import Scaffold.Json.Reader

/-! # Keys are held once

Of two members with one key the reader keeps one, so no object of a document that was read holds a key twice.
Giving a key a value keeps it so.
-/

namespace Scaffold.Json

open Scaffold.Number

namespace Value

mutual

/-- No object in a value holds a key twice. -/
def Distinct : Value → Prop
  | .array items => AreDistinct items
  | .object members => (members.map (·.1)).Nodup ∧ MembersDistinct members
  | _ => True

def AreDistinct : List Value → Prop
  | [] => True
  | item :: later => Distinct item ∧ AreDistinct later

def MembersDistinct : List (String × Value) → Prop
  | [] => True
  | (_, value) :: later => Distinct value ∧ MembersDistinct later

end

@[simp]
theorem membersDistinct_iff {members : Members} : MembersDistinct members ↔ ∀ member ∈ members, member.2.Distinct := by
  induction members with
  | nil => simp [MembersDistinct]
  | cons member later iff => simp [MembersDistinct, iff]

end Value

theorem keys_set (members : Members) (key : String) (value : Value) :
    (members.set key value).keys = if key ∈ members.keys then members.keys else members.keys ++ [key] := by
  unfold Members.set
  split
  · rw [Members.keys, List.map_map]
    refine List.map_congr_left fun member _ => ?_
    dsimp only [Function.comp]
    split
    · next same => exact same.symm
    · rfl
  · rw [Members.keys, List.map_append, List.map_singleton]
    rfl

theorem nodup_keys_set {members : Members} (key : String) (value : Value) (nodup : members.keys.Nodup) :
    (members.set key value).keys.Nodup := by
  rw [keys_set]
  split
  · exact nodup
  · next fresh =>
    have apart : ∀ other ∈ members.keys, other ≠ key := fun other mem same => fresh (same ▸ mem)
    simpa [List.nodup_append, nodup] using apart

theorem mem_set {members : Members} {key : String} {value : Value} {member : String × Value}
    (mem : member ∈ members.set key value) : member = (key, value) ∨ member ∈ members := by
  unfold Members.set at mem
  split at mem
  · obtain ⟨old, oldMem, rfl⟩ := List.mem_map.mp mem
    split
    · exact .inl rfl
    · exact .inr oldMem
  · rcases List.mem_append.mp mem with old | new
    · exact .inr old
    · exact .inl (List.mem_singleton.mp new)

/-- A value that stands at a key of an object is as sound as the object. -/
theorem distinct_set {members : Members} (key : String) {value : Value} (distinct : (Value.object members).Distinct)
    (own : value.Distinct) : (Value.object (members.set key value)).Distinct := by
  refine ⟨nodup_keys_set key value distinct.1, Value.membersDistinct_iff.mpr fun member mem => ?_⟩
  rcases mem_set mem with rfl | old
  · exact own
  · exact Value.membersDistinct_iff.mp distinct.2 member old

private theorem distinct_readNumber {place next : Place} {value : Value} (read : readNumber place = .ok (value, next)) :
    value.Distinct := by
  unfold readNumber at read
  extract_lets negative signLength unsigned whole at read
  split at read
  · cases read
  · split at read <;> rw [← (Prod.mk.inj (Except.ok.inj read)).1] <;> trivial

private theorem distinct_readPlain {place next : Place} {value : Value} (read : readPlain place = .ok (value, next)) :
    value.Distinct := by
  unfold readPlain at read
  split at read
  · next word value' found =>
    cases read
    have mem := List.mem_of_find?_eq_some found
    simp only [wordValues, List.mem_cons, Prod.mk.injEq, List.not_mem_nil, or_false] at mem
    rcases mem with ⟨-, rfl⟩ | ⟨-, rfl⟩ | ⟨-, rfl⟩ | ⟨-, rfl⟩ | ⟨-, rfl⟩ | ⟨-, rfl⟩ <;> trivial
  · exact distinct_readNumber read

/-- With this fuel, no value that is read holds a key twice. -/
private def ReadsDistinct (fuel : Nat) : Prop :=
  ∀ place value next, readValue fuel place = .ok (value, next) → value.Distinct

private def ReadsDistinctItems (fuel : Nat) : Prop :=
  ∀ place items next, readItems fuel place = .ok (items, next) → Value.AreDistinct items

/-- With this fuel, no key is added to members a second time. -/
private def ReadsDistinctMembers (fuel : Nat) : Prop :=
  ∀ before place members next, (Value.object before).Distinct → readMembers fuel before place = .ok (members, next) →
    (Value.object members).Distinct

private theorem readsDistinct_succ {fuel : Nat} (ofItems : ReadsDistinctItems fuel) (ofMembers : ReadsDistinctMembers fuel) :
    ReadsDistinct (fuel + 1) := by
  intro place value next read
  rw [readValue] at read
  split at read
  · split at read <;> cases read
    trivial
  · dsimp only at read
    split at read
    · cases read
      exact ⟨List.nodup_nil, trivial⟩
    · split at read
      · cases read
      · next members _ ran =>
        cases read
        exact ofMembers [] _ members _ ⟨List.nodup_nil, trivial⟩ ran
  · dsimp only at read
    split at read
    · cases read
      trivial
    · split at read
      · cases read
      · next items _ ran =>
        cases read
        exact ofItems _ items _ ran
  · cases read
  · exact distinct_readPlain read

private theorem readsDistinctItems_succ {fuel : Nat} (ofValue : ReadsDistinct fuel) (ofItems : ReadsDistinctItems fuel) :
    ReadsDistinctItems (fuel + 1) := by
  intro place items next read
  rw [readItems] at read
  split at read
  · cases read
  · next item after ran =>
    have own := ofValue _ item after ran
    dsimp only at read
    split at read
    · cases read
      exact ⟨own, trivial⟩
    · split at read
      · cases read
      · next later _ ranLater =>
        cases read
        exact ⟨own, ofItems _ later _ ranLater⟩
    · cases read

private theorem readsDistinctMembers_succ {fuel : Nat} (ofValue : ReadsDistinct fuel) (ofMembers : ReadsDistinctMembers fuel) :
    ReadsDistinctMembers (fuel + 1) := by
  intro before place members next distinct read
  rw [readMembers] at read
  split at read
  · split at read
    · cases read
    · next key afterKey _ =>
      dsimp only at read
      split at read
      · split at read
        · cases read
        · next value after ran =>
          have whole := distinct_set (String.ofList key) distinct (ofValue _ value after ran)
          split at read
          · cases read
            exact whole
          · exact ofMembers _ _ members next whole read
          · cases read
      · cases read
  · cases read

/-- With every fuel, what is read holds no key twice. -/
private theorem distinct_of_fuel (fuel : Nat) :
    ReadsDistinct fuel ∧ ReadsDistinctItems fuel ∧ ReadsDistinctMembers fuel := by
  induction fuel with
  | zero => exact ⟨fun _ _ _ read => (by cases read), fun _ _ _ read => (by cases read), fun _ _ _ _ _ read => (by cases read)⟩
  | succ fuel earlier =>
    obtain ⟨ofValue, ofItems, ofMembers⟩ := earlier
    exact ⟨readsDistinct_succ ofItems ofMembers, readsDistinctItems_succ ofValue ofItems,
      readsDistinctMembers_succ ofValue ofMembers⟩

/-- No object of a document that was read holds a key twice. -/
theorem distinct_of_parse {text : List Char} {value : Value} (read : parse text = .ok value) : value.Distinct := by
  unfold parse at read
  split at read
  · cases read
  · split at read
    · cases read
    · next found next ran =>
      dsimp only at read
      split at read <;> cases read
      exact (distinct_of_fuel _).1 _ _ _ ran

end Scaffold.Json
