import KrabkaRegistry.Format.JsonText
import KrabkaRegistry.Format.JsonVerdict

/-!
# A Concrete `serde_json` for JSON Schemas

The reader of compact documents, with its objects sorted into maps, as the `from_str` of
`serde_json`; and regular expressions without special characters.  The examples of the JSON
Schema guarantees run on it.
-/

namespace KrabkaRegistry.Format.Json

/-- `serde_json` on compact documents without floats. -/
def SerdeJson.compact : SerdeJson :=
  { SerdeJson.sample with
    fromStr text :=
      match readText text.toList with
      | some v => .ok (asValue v)
      | none => .error "expected value at line 1 column 1" }

/-- A pattern of plain characters matches where it occurs. -/
def DiffLibs.compact : DiffLibs :=
  ⟨SerdeJson.compact, fun pattern text => decide (pattern.toList <:+: text.toList)⟩

theorem compact_fromStr {text : String} {v : Value}
    (h : (readText text.toList).map asValue = some v) :
    SerdeJson.compact.fromStr text = .ok v := by
  obtain ⟨w, hw, rfl⟩ := Option.map_eq_some_iff.mp h
  simp only [SerdeJson.compact, hw]

/-- A text without references parses to its document. -/
theorem parses_of_fromStr {L : DiffLibs} {text : String} {v : Value}
    (h : L.serdeJson.fromStr text = .ok v) (hv : v.isObject || v.isBoolean) :
    Parses L text [] ⟨v, []⟩ := by
  unfold Parses parse
  simp only [h]
  cases v with
  | object members => rfl
  | bool b => rfl
  | _ => cases hv

theorem compact_parses {text : String} {v : Value}
    (h : (readText text.toList).map asValue = some v) (hv : v.isObject || v.isBoolean) :
    Parses .compact text [] ⟨v, []⟩ := parses_of_fromStr (compact_fromStr h) hv

/-! ## Objects are maps -/

theorem Value.Distinct.array {items : List Value} (h : ∀ v ∈ items, v.Distinct) :
    (Value.array items).Distinct := by
  intro members hsub
  cases hsub with
  | item hmem hin => exact h _ hmem members hin

theorem Value.Distinct.object {members : List (String × Value)}
    (hkeys : (members.map (·.1)).Nodup) (h : ∀ m ∈ members, m.2.Distinct) :
    (Value.object members).Distinct := by
  intro members' hsub
  cases hsub with
  | refl => exact hkeys
  | member hmem hin => exact h _ hmem members' hin

/-- A map built from a list holds values of the list. -/
private theorem insertMany_value {l : List (String × Value)} {map : BTreeMap String Value}
    {k : String} {v : Value} (h : (map.insertMany l)[k]? = some v) :
    (∃ p ∈ l, p.2 = v) ∨ map[k]? = some v := by
  induction l generalizing map with
  | nil => exact .inr (by simpa using h)
  | cons p l ih =>
    obtain ⟨key, value⟩ := p
    rw [Std.ExtTreeMap.insertMany_cons] at h
    rcases ih h with ⟨q, hq, rfl⟩ | hmap
    · exact .inl ⟨q, List.mem_cons_of_mem _ hq, rfl⟩
    · rw [BTreeMap.getElem?_insert] at hmap
      split_ifs at hmap
      · exact .inl ⟨(key, value), List.mem_cons_self, Option.some.inj hmap⟩
      · exact .inr hmap

private theorem ofList_distinct {l : List (String × Value)} (h : ∀ m ∈ l, m.2.Distinct) :
    (Value.object (Std.ExtTreeMap.ofList l compare).toList).Distinct := by
  apply Value.Distinct.object
  · have hpair := Std.ExtTreeMap.distinct_keys_toList (t := Std.ExtTreeMap.ofList l compare)
    rw [List.nodup_iff_pairwise_ne, List.pairwise_map]
    exact hpair.imp fun hne heq => hne (by rw [heq]; exact Std.ReflCmp.compare_self)
  · intro m hm
    have hget := Std.ExtTreeMap.mem_toList_iff_getElem?_eq_some.mp
      (show (m.1, m.2) ∈ (Std.ExtTreeMap.ofList l compare).toList from hm)
    rw [Std.ExtTreeMap.ofList_eq_insertMany_empty] at hget
    rcases insertMany_value hget with ⟨p, hp, heq⟩ | hnone
    · rw [← heq]
      exact h p hp
    · simp at hnone

mutual

theorem asValue_distinct : ∀ v : Value, (asValue v).Distinct
  | .null => by
    intro members hsub
    cases hsub
  | .bool _ => by
    intro members hsub
    cases hsub
  | .number _ => by
    intro members hsub
    cases hsub
  | .string _ => by
    intro members hsub
    cases hsub
  | .array items => .array (asItems_distinct items)
  | .object members => ofList_distinct (asMembers_distinct members)

theorem asItems_distinct : ∀ items : List Value, ∀ v ∈ asItems items, v.Distinct
  | [] => by simp [asItems]
  | v :: vs => by
    intro w hw
    rw [asItems] at hw
    rcases List.mem_cons.mp hw with rfl | hw
    · exact asValue_distinct v
    · exact asItems_distinct vs w hw

theorem asMembers_distinct : ∀ members : List (String × Value),
    ∀ m ∈ asMembers members, m.2.Distinct
  | [] => by simp [asMembers]
  | (k, v) :: ms => by
    intro m hm
    rw [asMembers] at hm
    rcases List.mem_cons.mp hm with rfl | hm
    · exact asValue_distinct v
    · exact asMembers_distinct ms m hm

end

theorem compact_distinct {text : String} {v : Value} (h : SerdeJson.compact.fromStr text = .ok v) :
    v.Distinct := by
  simp only [SerdeJson.compact] at h
  split at h
  · cases h
    exact asValue_distinct _
  · cases h

end KrabkaRegistry.Format.Json
