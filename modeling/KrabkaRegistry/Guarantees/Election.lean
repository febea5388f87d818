import KrabkaRegistry.Election.Protocol
import KrabkaRegistry.Guarantees.TopicBytes

/-!
# One Primary for Each Generation

The leader elects a member id, by the least URL among the eligible identities, and each node
compares the elected identity with its own.  The two agree, for every order of the member
list, exactly when the least URL belongs to one member only (`one_primary_iff`): a node that
joins with another's identity is a second primary (`two_primaries`).
-/

namespace KrabkaRegistry.Guarantees

open KrabkaRegistry.Format.Json
open KrabkaRegistry.Kafkastore.Codec
open KrabkaRegistry.Election

variable {J : SerdeJson} {fromSlice : ByteArray → Option Value}

/-! ## What is sent is read -/

private theorem isI32_toInt (n : Int32) : IsI32 n.toInt := by
  have hlow := n.le_toInt
  have hhigh := n.toInt_lt
  unfold IsI32 i32Max
  omega

private theorem readInt32_intValue (n : Int32) : readInt32 (intValue n.toInt) = some n := by
  simp [readInt32, readI32_intValue (isI32_toInt n)]

@[simp] private theorem readBool_bool (b : Bool) : readBool (.bool b) = some b := rfl

theorem readsBack_identity (i : SchemaRegistryIdentity) : ReadsBack J fromSlice i.serialize := by
  refine .object ?_
  simp only [List.forall_mem_cons, List.not_mem_nil, false_implies, implies_true, and_true]
  exact ⟨.string _, readsBack_intValue (isI32_toInt _), .bool _, .string _,
    readsBack_intValue (isI32_toInt _)⟩

theorem deserialize_identity (i : SchemaRegistryIdentity) :
    SchemaRegistryIdentity.deserialize i.serialize = some i := by
  simp [SchemaRegistryIdentity.deserialize, SchemaRegistryIdentity.serialize, structMembers,
    required, field, readInt32_intValue]

theorem readsBack_assignment (a : SchemaRegistryGroupAssignment) :
    ReadsBack J fromSlice a.serialize := by
  have hmaster : ReadsBack J fromSlice (nullable a.master) := by
    cases a.master with
    | none => exact .null
    | some m => exact .string m
  have hidentity : ReadsBack J fromSlice (nullableIdentity a.masterIdentity) := by
    cases a.masterIdentity with
    | none => exact .null
    | some i => exact readsBack_identity i
  refine .object ?_
  simp only [List.forall_mem_cons, List.not_mem_nil, false_implies, implies_true, and_true]
  exact ⟨readsBack_intValue (isI32_toInt _), hmaster, hidentity, readsBack_intValue (isI32_toInt _)⟩

private theorem readOption_nullableIdentity (i : Option SchemaRegistryIdentity) :
    readOption SchemaRegistryIdentity.deserialize (nullableIdentity i) = some i := by
  cases i with
  | none => rfl
  | some i =>
    show (SchemaRegistryIdentity.deserialize i.serialize).map some = some (some i)
    rw [deserialize_identity, Option.map_some]

theorem deserialize_assignment (a : SchemaRegistryGroupAssignment) :
    SchemaRegistryGroupAssignment.deserialize a.serialize = some a := by
  simp [SchemaRegistryGroupAssignment.deserialize, SchemaRegistryGroupAssignment.serialize,
    structMembers, required, defaulted, field, readInt32_intValue, readOption_nullableIdentity]

/-! ## The generation's identities -/

/-- The members with an identity the leader can read, in the leader's order. -/
def identitiesOf (J : SerdeJson) (fromSlice : ByteArray → Option Value) (g : Generation) :
    List (String × SchemaRegistryIdentity) :=
  identities fromSlice (g.listed J)

/-- The identity that the leader reads for one participant. -/
def decoded (J : SerdeJson) (fromSlice : ByteArray → Option Value) (p : Participant) :
    Option (String × SchemaRegistryIdentity) :=
  ((fromSlice (p.metadata J)).bind SchemaRegistryIdentity.deserialize).map fun i => (p.memberId, i)

theorem identitiesOf_eq (g : Generation) :
    identitiesOf J fromSlice g = g.members.filterMap (decoded J fromSlice) := by
  unfold identitiesOf identities Generation.listed
  rw [List.filterMap_map]
  rfl

/-- A node's own identity is read back. -/
theorem decoded_registry (hJ : FaithfulJson J fromSlice) (memberId : String)
    (client : ElectionClient) :
    decoded J fromSlice ⟨memberId, .registry client⟩ = some (memberId, client.identity) := by
  show ((fromSlice (toVec J client.identity.serialize)).bind _).map _ = _
  rw [hJ.reads (readsBack_identity client.identity)]
  show (SchemaRegistryIdentity.deserialize client.identity.serialize).map _ = _
  rw [deserialize_identity, Option.map_some]

/-! ## The selection -/

/-- An eligible member whose URL is least among those of the eligible members. -/
structure LeastUrl (members : List (String × SchemaRegistryIdentity))
    (m : String × SchemaRegistryIdentity) : Prop where
  mem : m ∈ members
  eligible : m.2.masterEligibility = true
  least : ∀ n ∈ members, n.2.masterEligibility = true → m.2.url ≤ n.2.url

theorem selectMaster_leastUrl {members : List (String × SchemaRegistryIdentity)}
    {m : String × SchemaRegistryIdentity} (h : selectMaster members = some m) :
    LeastUrl members m := by
  obtain ⟨hmem, heligible⟩ := List.mem_filter.mp (List.argmin_mem h)
  refine ⟨hmem, heligible, fun n hn hel => ?_⟩
  have hn' : n ∈ members.filter fun m => m.2.masterEligibility := List.mem_filter.mpr ⟨hn, hel⟩
  exact List.le_of_mem_argmin (f := fun m : String × SchemaRegistryIdentity => m.2.url) hn' h

theorem selectMaster_eq_none {members : List (String × SchemaRegistryIdentity)} :
    selectMaster members = none ↔ ∀ m ∈ members, m.2.masterEligibility = false := by
  unfold selectMaster
  rw [List.argmin_eq_none, List.filter_eq_nil_iff]
  simp

/-- A member that is least and comes first is selected. -/
theorem selectMaster_first {members : List (String × SchemaRegistryIdentity)}
    {m : String × SchemaRegistryIdentity} (h : LeastUrl (m :: members) m) :
    selectMaster (m :: members) = some m := by
  unfold selectMaster
  rw [List.filter_cons, if_pos h.eligible, List.argmin_eq_some_iff]
  refine ⟨List.mem_cons_self, fun n hn => ?_, fun n _ _ => ?_⟩
  · obtain ⟨hmem, hel⟩ : n ∈ m :: members ∧ n.2.masterEligibility = true := by
      rcases List.mem_cons.mp hn with rfl | hn
      · exact ⟨List.mem_cons_self, h.eligible⟩
      · obtain ⟨hmem, hel⟩ := List.mem_filter.mp hn
        exact ⟨List.mem_cons_of_mem _ hmem, hel⟩
    exact h.least n hmem hel
  · simp

/-- The least URL belongs to one member. -/
def SoleLeastUrl (members : List (String × SchemaRegistryIdentity)) : Prop :=
  ∀ m n, LeastUrl members m → LeastUrl members n → m.1 = n.1

theorem LeastUrl.perm {l l' : List (String × SchemaRegistryIdentity)} (hperm : l.Perm l')
    {m : String × SchemaRegistryIdentity} (h : LeastUrl l m) : LeastUrl l' m := by
  refine ⟨hperm.mem_iff.mp h.mem, h.eligible, fun n hn hel => ?_⟩
  exact h.least n (hperm.mem_iff.mpr hn) hel

/-! ## What the nodes publish -/

/-- Every member is sent the assignment of the generation. -/
theorem synced_of_mem (g : Generation) {p : Participant} (hp : p ∈ g.members) :
    g.synced J fromSlice p.memberId = toVec J (g.assignment J fromSlice).serialize := by
  have hlead : assignments J fromSlice (g.joined J g.leader) =
      (g.listed J).map fun m =>
        ⟨m.memberId, toVec J (g.assignment J fromSlice).serialize⟩ := by
    simp [assignments, Generation.joined, Generation.assignment]
  unfold Generation.synced
  rw [hlead]
  cases hfind : ((g.listed J).map fun m => (⟨m.memberId,
      toVec J (g.assignment J fromSlice).serialize⟩ : SyncGroupRequestAssignment)).find?
      fun a => a.memberId = p.memberId with
  | some a =>
    obtain ⟨m, _, rfl⟩ := List.mem_map.mp (List.mem_of_find?_eq_some hfind)
    rfl
  | none =>
    rw [List.find?_eq_none] at hfind
    have hmem : (⟨p.memberId, toVec J (g.assignment J fromSlice).serialize⟩ :
        SyncGroupRequestAssignment) ∈ (g.listed J).map fun m =>
          ⟨m.memberId, toVec J (g.assignment J fromSlice).serialize⟩ := by
      apply List.mem_map.mpr
      exact ⟨p.member J, List.mem_map_of_mem hp, rfl⟩
    exact absurd (decide_eq_true rfl) (hfind _ hmem)

/-- A node is primary when the elected identity is its own. -/
theorem published_isPrimary (hJ : FaithfulJson J fromSlice) (g : Generation) {memberId : String}
    {client : ElectionClient} (hp : ⟨memberId, .registry client⟩ ∈ g.members) :
    (g.published J fromSlice memberId client).isPrimary = true ↔
      (selectMaster (identitiesOf J fromSlice g)).map (·.2) = some client.identity := by
  have hparsed : (fromSlice (g.synced J fromSlice memberId)).bind
      SchemaRegistryGroupAssignment.deserialize = some (g.assignment J fromSlice) := by
    rw [synced_of_mem g hp, hJ.reads (readsBack_assignment _)]
    exact deserialize_assignment _
  simp only [Generation.published, ElectionClient.publish, hparsed, Option.getD_some,
    decide_eq_true_eq]
  rfl

theorem assignment_master (g : Generation) :
    (g.assignment J fromSlice).master = (selectMaster (identitiesOf J fromSlice g)).map (·.1) :=
  rfl

/-! ## Agreement -/

/-- At most one node is primary, it is the one that the assignment names, and the elected
member is the same for every order of the members. -/
structure OnePrimary (J : SerdeJson) (fromSlice : ByteArray → Option Value) (g : Generation) :
    Prop where
  unique : ∀ {m n c d}, ⟨m, .registry c⟩ ∈ g.members → ⟨n, .registry d⟩ ∈ g.members →
    (g.published J fromSlice m c).isPrimary = true →
    (g.published J fromSlice n d).isPrimary = true → m = n
  named : ∀ {m c}, ⟨m, .registry c⟩ ∈ g.members →
    (g.published J fromSlice m c).isPrimary = true →
    (g.assignment J fromSlice).master = some m
  anyOrder : ∀ g' : Generation, g'.members.Perm g.members →
    (g'.assignment J fromSlice).master = (g.assignment J fromSlice).master

/-- A member with the elected identity has the least URL too. -/
theorem leastUrl_of_isPrimary (hJ : FaithfulJson J fromSlice) (g : Generation) {m : String}
    {c : ElectionClient} (hp : ⟨m, .registry c⟩ ∈ g.members)
    (h : (g.published J fromSlice m c).isPrimary = true) :
    LeastUrl (identitiesOf J fromSlice g) (m, c.identity) := by
  obtain ⟨⟨mid, i⟩, hselect, rfl⟩ :=
    Option.map_eq_some_iff.mp ((published_isPrimary hJ g hp).mp h)
  obtain ⟨_, heligible, hleast⟩ := selectMaster_leastUrl hselect
  refine ⟨?_, heligible, hleast⟩
  rw [identitiesOf_eq, List.mem_filterMap]
  exact ⟨_, hp, decoded_registry hJ m c⟩

theorem named_of_soleLeastUrl (hJ : FaithfulJson J fromSlice) (g : Generation)
    (hsole : SoleLeastUrl (identitiesOf J fromSlice g)) {m : String} {c : ElectionClient}
    (hp : ⟨m, .registry c⟩ ∈ g.members) (h : (g.published J fromSlice m c).isPrimary = true) :
    (g.assignment J fromSlice).master = some m := by
  obtain ⟨n, hselect, _⟩ := Option.map_eq_some_iff.mp ((published_isPrimary hJ g hp).mp h)
  have hmn := hsole n _ (selectMaster_leastUrl hselect) (leastUrl_of_isPrimary hJ g hp h)
  rw [assignment_master, hselect, Option.map_some, hmn]

theorem anyOrder_of_soleLeastUrl {g g' : Generation} (hperm : g'.members.Perm g.members)
    (hsole : SoleLeastUrl (identitiesOf J fromSlice g)) :
    (g'.assignment J fromSlice).master = (g.assignment J fromSlice).master := by
  have hids : (identitiesOf J fromSlice g').Perm (identitiesOf J fromSlice g) := by
    rw [identitiesOf_eq, identitiesOf_eq]
    exact hperm.filterMap _
  rw [assignment_master, assignment_master]
  cases hselect : selectMaster (identitiesOf J fromSlice g) with
  | none =>
    have hnone : selectMaster (identitiesOf J fromSlice g') = none := by
      rw [selectMaster_eq_none] at hselect ⊢
      exact fun m hm => hselect m (hids.mem_iff.mp hm)
    rw [hnone]
  | some m =>
    cases hselect' : selectMaster (identitiesOf J fromSlice g') with
    | none =>
      have hnone : selectMaster (identitiesOf J fromSlice g) = none := by
        rw [selectMaster_eq_none] at hselect' ⊢
        exact fun m hm => hselect' m (hids.mem_iff.mpr hm)
      rw [hselect] at hnone
      cases hnone
    | some n =>
      -- Both winners have the least URL, and only one member has it.
      have hmn := hsole n m ((selectMaster_leastUrl hselect').perm hids)
        (selectMaster_leastUrl hselect)
      rw [Option.map_some, Option.map_some, hmn]

/-- Each member with the least URL is elected in some order of the list. -/
theorem elected_in_some_order (g : Generation) {m : String × SchemaRegistryIdentity}
    (h : LeastUrl (identitiesOf J fromSlice g) m) :
    ∃ g' : Generation, g'.members.Perm g.members ∧
      (g'.assignment J fromSlice).master = some m.1 := by
  obtain ⟨p, hp, hdec⟩ : ∃ p ∈ g.members, decoded J fromSlice p = some m := by
    have hmem := h.mem
    rwa [identitiesOf_eq, List.mem_filterMap] at hmem
  obtain ⟨before, after, hsplit⟩ := List.append_of_mem hp
  -- The same generation with this member listed first.
  have hperm : (p :: (before ++ after)).Perm g.members := by
    rw [hsplit]
    exact List.perm_middle.symm
  let g' : Generation :=
    { g with
      members := p :: (before ++ after)
      distinct := (hperm.map Participant.memberId).nodup_iff.mpr g.distinct
      leads := by
        obtain ⟨client, hc⟩ := g.leads
        exact ⟨client, hperm.mem_iff.mpr hc⟩ }
  have hids : identitiesOf J fromSlice g' =
      m :: (before ++ after).filterMap (decoded J fromSlice) := by
    rw [identitiesOf_eq]
    exact List.filterMap_cons_some hdec
  have hleast : LeastUrl (m :: (before ++ after).filterMap (decoded J fromSlice)) m := by
    rw [← hids]
    apply h.perm
    rw [identitiesOf_eq, identitiesOf_eq]
    exact (hperm.filterMap _).symm
  refine ⟨g', hperm, ?_⟩
  rw [assignment_master, hids, selectMaster_first hleast, Option.map_some]

/-- One primary, the elected one, whatever the order of the members: exactly when the least
URL among the eligible identities belongs to one member. -/
theorem one_primary_iff (hJ : FaithfulJson J fromSlice) (g : Generation) :
    OnePrimary J fromSlice g ↔ SoleLeastUrl (identitiesOf J fromSlice g) := by
  constructor
  · intro h m n hm hn
    obtain ⟨gm, hpermm, hmasterm⟩ := elected_in_some_order g hm
    obtain ⟨gn, hpermn, hmastern⟩ := elected_in_some_order g hn
    have heq : some m.1 = some n.1 := by
      rw [← hmasterm, ← hmastern, h.anyOrder gm hpermm, h.anyOrder gn hpermn]
    exact Option.some.inj heq
  · intro hsole
    refine ⟨?_, ?_, ?_⟩
    · intro m n c d hm hn hpm hpn
      have hmaster := named_of_soleLeastUrl hJ g hsole hm hpm
      rw [named_of_soleLeastUrl hJ g hsole hn hpn] at hmaster
      exact (Option.some.inj hmaster).symm
    · intro m c hp h
      exact named_of_soleLeastUrl hJ g hsole hp h
    · intro g' hperm
      exact anyOrder_of_soleLeastUrl hperm hsole

/-- A node at a host, on the default port. -/
def nodeAt (host : String) (eligible : Bool) : ElectionClient :=
  ⟨⟨host, 8081, eligible, "http", 1⟩⟩

/-- Three nodes in no particular order, one of them not eligible, and a member with metadata
that are no identity. -/
def mixedGroup : Generation where
  generationId := 7
  members := [⟨"m2", .registry (nodeAt "b" true)⟩, ⟨"m4", .other ByteArray.empty⟩,
    ⟨"m1", .registry (nodeAt "a" true)⟩, ⟨"m3", .registry (nodeAt "A" false)⟩]
  leader := "m2"
  distinct := by decide
  leads := ⟨_, List.mem_cons_self⟩

theorem one_primary_mixed :
    OnePrimary SerdeJson.sample readDocument mixedGroup ∧
      (mixedGroup.assignment SerdeJson.sample readDocument).master = some "m1" := by
  have hother : decoded SerdeJson.sample readDocument ⟨"m4", .other ByteArray.empty⟩ = none := by
    decide +kernel
  have hids : identitiesOf SerdeJson.sample readDocument mixedGroup =
      [("m2", (nodeAt "b" true).identity), ("m1", (nodeAt "a" true).identity),
        ("m3", (nodeAt "A" false).identity)] := by
    rw [identitiesOf_eq]
    simp [mixedGroup, decoded_registry faithfulJson_sample, hother]
  have hselect : selectMaster (identitiesOf SerdeJson.sample readDocument mixedGroup) =
      some ("m1", (nodeAt "a" true).identity) := by
    rw [hids]
    decide +kernel
  refine ⟨(one_primary_iff faithfulJson_sample mixedGroup).mpr ?_, ?_⟩
  · -- The least URL is the elected one, and no other eligible member has it.
    have hsole : ∀ m, LeastUrl (identitiesOf SerdeJson.sample readDocument mixedGroup) m →
        m.1 = "m1" := by
      rintro m ⟨hmem, heligible, hleast⟩
      have hurl := hleast _ (selectMaster_leastUrl hselect).mem rfl
      rw [hids] at hmem
      simp only [List.mem_cons, List.not_mem_nil, or_false] at hmem
      rcases hmem with rfl | rfl | rfl
      · exact absurd hurl (by decide +kernel)
      · rfl
      · cases heligible
    intro m n hm hn
    rw [hsole m hm, hsole n hn]
  · rw [assignment_master, hselect, Option.map_some]

/-- Two nodes that were given one advertised URL. -/
def twins : Generation where
  generationId := 7
  members := [⟨"m1", .registry (nodeAt "a" true)⟩, ⟨"m2", .registry (nodeAt "a" true)⟩]
  leader := "m1"
  distinct := by decide
  leads := ⟨_, List.mem_cons_self⟩

/-- Both are primary in the same generation, and the assignment names only one of them. -/
theorem two_primaries :
    (twins.published SerdeJson.sample readDocument "m1" (nodeAt "a" true)).isPrimary = true ∧
    (twins.published SerdeJson.sample readDocument "m2" (nodeAt "a" true)).isPrimary = true ∧
    (twins.assignment SerdeJson.sample readDocument).master = some "m1" ∧
    ¬ OnePrimary SerdeJson.sample readDocument twins := by
  have hfirst : ⟨"m1", .registry (nodeAt "a" true)⟩ ∈ twins.members := by decide
  have hsecond : ⟨"m2", .registry (nodeAt "a" true)⟩ ∈ twins.members := by decide
  have hselect : selectMaster (identitiesOf SerdeJson.sample readDocument twins) =
      some ("m1", (nodeAt "a" true).identity) := by
    rw [identitiesOf_eq]
    simp only [twins, List.filterMap_cons, List.filterMap_nil,
      decoded_registry faithfulJson_sample]
    decide +kernel
  have hprimary : ∀ {m : String}, ⟨m, .registry (nodeAt "a" true)⟩ ∈ twins.members →
      (twins.published SerdeJson.sample readDocument m (nodeAt "a" true)).isPrimary = true := by
    intro m hm
    rw [published_isPrimary faithfulJson_sample twins hm, hselect, Option.map_some]
  refine ⟨hprimary hfirst, hprimary hsecond, ?_, fun h => ?_⟩
  · rw [assignment_master, hselect, Option.map_some]
  · have heq := h.unique hfirst hsecond (hprimary hfirst) (hprimary hsecond)
    exact absurd heq (by decide)

end KrabkaRegistry.Guarantees
