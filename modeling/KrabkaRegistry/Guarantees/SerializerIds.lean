import KrabkaRegistry.Serde.Cache

/-!
# The Id that a Serializer Frames With

The cache interns schemas by all that they are, and keeps one id for each subject: the one
that was resolved last.  So each serde reads the id of its own schema as long as no two serdes
of one role register different schemas for one topic, and after a completed `prewarm` exactly
then (`serializer_ids`).
-/

namespace KrabkaRegistry.Guarantees

open KrabkaRegistry.Serde
open KrabkaRegistry.Format (Libs)

/-! ## Subjects are one to one -/

theorem topicNameSubject_inj {topic topic' : String} {role role' : Role}
    (h : topicNameSubject topic role = topicNameSubject topic' role') :
    topic = topic' ∧ role = role' := by
  have hchars := congrArg String.toList h
  cases role <;> cases role' <;>
    simp only [topicNameSubject, String.toList_append, String.reduceToList] at hchars
  · exact ⟨String.toList_inj.mp (List.append_cancel_right hchars), rfl⟩
  · -- The two suffixes end in different letters.
    have hlast := congrArg List.getLast? hchars
    simp [List.getLast?_append] at hlast
  · have hlast := congrArg List.getLast? hchars
    simp [List.getLast?_append] at hlast
  · exact ⟨String.toList_inj.mp (List.append_cancel_right hchars), rfl⟩

/-! ## The registry -/

/-- What the registry answers are the ids it has bound, to a register and to a lookup. -/
structure AssignsIds (idOf : String → LocalSchema → Option UInt32) (client : RegistryClient) :
    Prop where
  register : ∀ {s x n}, client.register s x = .ok n → idOf s x = some n
  lookup : ∀ {s x n}, client.lookup s x = .ok n → idOf s x = some n

/-- Different schemas have different ids. -/
def DistinctIds (idOf : String → LocalSchema → Option UInt32) : Prop :=
  ∀ {s s' x y n}, idOf s x = some n → idOf s' y = some n → x = y

/-- In every round of every prewarm of the run, the registry answers with the ids it bound. -/
def Answered (idOf : String → LocalSchema → Option UInt32) (calls : List CacheCall) : Prop :=
  ∀ registry, .prewarm registry ∈ calls → ∀ round, AssignsIds idOf (registry round)

variable {L : Libs} {mode : RegisterMode} {idOf : String → LocalSchema → Option UInt32}

theorem resolve_id (hmode : mode ≠ .useLatest) {client : RegistryClient}
    (hclient : AssignsIds idOf client) {i : Interned} {r : Resolved}
    (h : resolve L mode client i = .ok r) : idOf i.subject i.toLocalSchema = some r.id := by
  cases mode with
  | autoRegister =>
    obtain ⟨n, hn, h⟩ := bind_ok h
    obtain ⟨_, _, h⟩ := bind_ok h
    cases h
    exact hclient.register hn
  | lookupOnly =>
    obtain ⟨n, hn, h⟩ := bind_ok h
    obtain ⟨_, _, h⟩ := bind_ok h
    cases h
    exact hclient.lookup hn
  | useLatest => exact absurd rfl hmode

/-! ## One prewarm -/

/-- The id of a subject is the registry's id of a schema interned under it. -/
def IdsBound (idOf : String → LocalSchema → Option UInt32) (g : Inner) : Prop :=
  ∀ s n, g.idForSubject s = some n →
    ∃ i ∈ g.interned, i.subject = s ∧ idOf s i.toLocalSchema = some n

theorem idForSubject_insert (g : Inner) (i : Interned) (r : Resolved) (s : String) :
    (g.insert i r).idForSubject s = if s = i.subject then some r.id else g.idForSubject s := by
  unfold Inner.idForSubject Inner.insert
  rw [BTreeMap.getElem?_insert]

theorem IdsBound.insert (hmode : mode ≠ .useLatest) {client : RegistryClient}
    (hclient : AssignsIds idOf client) {g : Inner} (hg : IdsBound idOf g) {i : Interned}
    (hi : i ∈ g.interned) {r : Resolved} (hr : resolve L mode client i = .ok r) :
    IdsBound idOf (g.insert i r) := by
  intro s n hs
  rw [idForSubject_insert] at hs
  split_ifs at hs with hsubject
  · obtain rfl := Option.some.inj hs
    exact ⟨i, hi, hsubject.symm, hsubject ▸ resolve_id hmode hclient hr⟩
  · exact hg s n hs

section Loop

variable {registry : ℕ → RegistryClient}

@[simp] theorem prewarmLoop_interned (round : ℕ) (pending : List Interned) (g : Inner) :
    (g.prewarmLoop L mode registry round pending).2.interned = g.interned := by
  induction pending generalizing round g with
  | nil => rfl
  | cons i pending ih =>
    rw [Inner.prewarmLoop]
    split
    · rfl
    · rw [ih]
      rfl

theorem IdsBound.prewarmLoop (hmode : mode ≠ .useLatest)
    (hregistry : ∀ round, AssignsIds idOf (registry round)) {pending : List Interned} {g : Inner}
    (hg : IdsBound idOf g) (hpending : ∀ i ∈ pending, i ∈ g.interned) (round : ℕ) :
    IdsBound idOf (g.prewarmLoop L mode registry round pending).2 := by
  induction pending generalizing round g with
  | nil => exact hg
  | cons i pending ih =>
    rw [Inner.prewarmLoop]
    split
    · exact hg
    · rename_i r hr
      refine ih (hg.insert hmode (hregistry round) (hpending i List.mem_cons_self) hr) ?_ _
      exact fun j hj => hpending j (List.mem_cons_of_mem i hj)

/-- A subject that has an id keeps one. -/
theorem prewarmLoop_keeps {s : String} (round : ℕ) (pending : List Interned) {g : Inner}
    (h : (g.idForSubject s).isSome) :
    ((g.prewarmLoop L mode registry round pending).2.idForSubject s).isSome := by
  induction pending generalizing round g with
  | nil => exact h
  | cons i pending ih =>
    rw [Inner.prewarmLoop]
    split
    · exact h
    · apply ih
      rw [idForSubject_insert]
      split_ifs
      · rfl
      · exact h

/-- A loop that comes to its end has an id for the subject of each entry. -/
theorem prewarmLoop_resolves {pending : List Interned} {g : Inner} {round : ℕ}
    (h : (g.prewarmLoop L mode registry round pending).1 = .ok ()) {i : Interned}
    (hi : i ∈ pending) :
    ((g.prewarmLoop L mode registry round pending).2.idForSubject i.subject).isSome := by
  induction pending generalizing round g with
  | nil => cases hi
  | cons j pending ih =>
    rw [Inner.prewarmLoop] at h ⊢
    split at h
    · cases h
    · rcases List.mem_cons.mp hi with rfl | hi
      · apply prewarmLoop_keeps
        rw [idForSubject_insert, if_pos rfl]
        rfl
      · exact ih h hi

end Loop

/-! ## Runs -/

theorem afterCalls_snoc (calls : List CacheCall) (c : CacheCall) :
    afterCalls L mode (calls ++ [c]) = (afterCalls L mode calls).call L mode c := by
  unfold afterCalls
  rw [List.foldl_append]
  rfl

/-- What is interned is what was registered. By induction on the calls, from the last one back;
prewarming interns nothing. -/
theorem mem_interned {calls : List CacheCall} {i : Interned} :
    i ∈ (afterCalls L mode calls).interned ↔
      ∃ b topic, .register b topic ∈ calls ∧ i = ⟨b.toLocalSchema, b.subject topic⟩ := by
  induction calls using List.reverseRecOn with
  | nil => simp [afterCalls]
  | append_singleton calls c ih =>
    rw [afterCalls_snoc]
    cases c with
    | prewarm registry =>
      simp only [Inner.call, Inner.prewarm, prewarmLoop_interned, List.mem_append,
        List.mem_singleton, reduceCtorEq, or_false]
      exact ih
    | register b topic =>
      -- Interning adds the pair unless it is there.
      have hmem : i ∈ (b.register (afterCalls L mode calls) topic).interned ↔
          i ∈ (afterCalls L mode calls).interned ∨ i = ⟨b.toLocalSchema, b.subject topic⟩ := by
        unfold Binding.register Inner.intern
        split_ifs with hin
        · constructor
          · exact .inl
          · rintro (h | rfl)
            · exact h
            · exact hin
        · simp
      simp only [Inner.call, hmem, ih, List.mem_append, List.mem_singleton]
      constructor
      · rintro (⟨b', topic', hreg, rfl⟩ | rfl)
        · exact ⟨b', topic', .inl hreg, rfl⟩
        · exact ⟨b, topic, .inr rfl, rfl⟩
      · rintro ⟨b', topic', hreg | heq, rfl⟩
        · exact .inl ⟨b', topic', hreg, rfl⟩
        · cases heq
          exact .inr rfl

theorem idsBound_afterCalls (hmode : mode ≠ .useLatest) {calls : List CacheCall}
    (h : Answered idOf calls) : IdsBound idOf (afterCalls L mode calls) := by
  induction calls using List.reverseRecOn with
  | nil =>
    intro s n hs
    simp [afterCalls, Inner.idForSubject] at hs
  | append_singleton calls c ih =>
    have hbound := ih fun registry hreg => h registry (List.mem_append_left _ hreg)
    rw [afterCalls_snoc]
    cases c with
    -- A registration puts its schema among the interned ones and touches no id.
    | register b topic =>
      intro s n hs
      have hsame : (b.register (afterCalls L mode calls) topic).idForSubject s =
          (afterCalls L mode calls).idForSubject s := by
        unfold Binding.register Inner.intern
        split_ifs <;> rfl
      rw [Inner.call, hsame] at hs
      obtain ⟨i, hi, hsubject, hid⟩ := hbound s n hs
      refine ⟨i, ?_, hsubject, hid⟩
      rw [← afterCalls_snoc]
      obtain ⟨b', topic', hreg, rfl⟩ := mem_interned.mp hi
      exact mem_interned.mpr ⟨b', topic', List.mem_append_left _ hreg, rfl⟩
    | prewarm registry =>
      have hregistry := h registry (List.mem_append_right _ List.mem_cons_self)
      exact hbound.prewarmLoop hmode hregistry (fun i hi => hi) 0

/-- A completed prewarm came after this serde registered the topic. -/
def WarmedFor (L : Libs) (mode : RegisterMode) (calls : List CacheCall) (b : Binding)
    (topic : String) : Prop :=
  ∃ before registry after, calls = before ++ .prewarm registry :: after ∧
    .register b topic ∈ before ∧ ((afterCalls L mode before).prewarm L mode registry).1 = .ok ()

/-- Every serde that a prewarm covers and that reads an id reads the one of its own schema. -/
def FramesOwnIds (idOf : String → LocalSchema → Option UInt32) (L : Libs) (mode : RegisterMode)
    (calls : List CacheCall) : Prop :=
  ∀ b topic, WarmedFor L mode calls b topic → ∀ n, b.id (afterCalls L mode calls) topic = .ok n →
    idOf (b.subject topic) b.toLocalSchema = some n

/-- No two serdes of one role register different schemas for one topic. -/
def OneSchemaEach (calls : List CacheCall) : Prop :=
  ∀ b b' topic, .register b topic ∈ calls → .register b' topic ∈ calls → b.role = b'.role →
    b.toLocalSchema = b'.toLocalSchema

/-- The last call is a prewarm that completes. -/
def EndsWarm (L : Libs) (mode : RegisterMode) (calls : List CacheCall) : Prop :=
  ∃ before registry, calls = before ++ [.prewarm registry] ∧
    ((afterCalls L mode before).prewarm L mode registry).1 = .ok ()

theorem id_eq_ok {b : Binding} {g : Inner} {topic : String} {n : UInt32} :
    b.id g topic = .ok n ↔ g.idForSubject (b.subject topic) = some n := by
  unfold Binding.id
  cases g.idForSubject (b.subject topic) <;> simp

theorem framesOwnIds_of_oneSchemaEach (hmode : mode ≠ .useLatest) {calls : List CacheCall}
    (hanswered : Answered idOf calls) (h : OneSchemaEach calls) :
    FramesOwnIds idOf L mode calls := by
  rintro b topic ⟨before, registry, after, rfl, hreg, _⟩ n hn
  obtain ⟨i, hi, hsubject, hid⟩ := idsBound_afterCalls hmode hanswered _ n (id_eq_ok.mp hn)
  obtain ⟨b', topic', hreg', rfl⟩ := mem_interned.mp hi
  obtain ⟨rfl, hrole⟩ := topicNameSubject_inj hsubject
  rwa [h b' b topic' hreg' (List.mem_append_left _ hreg) hrole] at hid

theorem oneSchemaEach_of_framesOwnIds (hdistinct : DistinctIds idOf) {calls : List CacheCall}
    (hwarm : EndsWarm L mode calls) (h : FramesOwnIds idOf L mode calls) :
    OneSchemaEach calls := by
  obtain ⟨before, registry, rfl, hok⟩ := hwarm
  -- What is registered at all is registered before the prewarm.
  have hbefore : ∀ {b topic}, .register b topic ∈ before ++ [.prewarm registry] →
      .register b topic ∈ before := by
    intro b topic hmem
    rcases List.mem_append.mp hmem with hmem | hmem
    · exact hmem
    · cases List.mem_singleton.mp hmem
  have hown : ∀ {b topic n}, .register b topic ∈ before →
      (afterCalls L mode (before ++ [.prewarm registry])).idForSubject (b.subject topic) = some n →
      idOf (b.subject topic) b.toLocalSchema = some n := fun {b topic n} hmem hn =>
    h b topic ⟨before, registry, [], rfl, hmem, hok⟩ n (id_eq_ok.mpr hn)
  intro b b' topic hb hb' hrole
  have hsubject : b'.subject topic = b.subject topic := by
    unfold Binding.subject
    rw [hrole]
  have hsome : ((afterCalls L mode (before ++ [.prewarm registry])).idForSubject
      (b.subject topic)).isSome := by
    rw [afterCalls_snoc]
    exact prewarmLoop_resolves hok (mem_interned.mpr ⟨b, topic, hbefore hb, rfl⟩)
  obtain ⟨n, hn⟩ := Option.isSome_iff_exists.mp hsome
  have hid := hown (hbefore hb) hn
  have hid' := hown (hbefore hb') (hsubject ▸ hn)
  exact hdistinct hid hid'

/-- In every run where no two serdes of one role register different schemas for one topic,
each serde frames with the id of its own schema; after a completed prewarm, exactly then. -/
theorem serializer_ids (hmode : mode ≠ .useLatest) (hdistinct : DistinctIds idOf)
    {calls : List CacheCall} (hanswered : Answered idOf calls) :
    (OneSchemaEach calls → FramesOwnIds idOf L mode calls) ∧
    (EndsWarm L mode calls → (FramesOwnIds idOf L mode calls ↔ OneSchemaEach calls)) := by
  have hsound := framesOwnIds_of_oneSchemaEach (L := L) hmode hanswered
  refine ⟨hsound, fun hwarm => ⟨?_, hsound⟩⟩
  exact oneSchemaEach_of_framesOwnIds hdistinct hwarm

/-- A registry that has bound two schemas of the value role. -/
def sampleIds (_ : String) (x : LocalSchema) : Option UInt32 :=
  if x = ⟨.avro, "\"string\"", [], none⟩ then some 1
  else if x = ⟨.avro, "\"int\"", [], none⟩ then some 2
  else none

/-- It answers with the ids it has bound, and has no version to show. -/
def sampleRegistry : RegistryClient :=
  let answer (s : String) (x : LocalSchema) : Except RegistryError UInt32 :=
    (sampleIds s x).elim (.error (.registryStatus 404 40403 "Schema not found")) .ok
  let missing : RegistryError := .registryStatus 404 40401 "Subject not found"
  ⟨answer, answer, fun _ => .error missing, fun _ _ => .error missing⟩

theorem sampleRegistry_assignsIds : AssignsIds sampleIds sampleRegistry := by
  have hanswer : ∀ {s x n}, (sampleIds s x).elim
      (.error (.registryStatus 404 40403 "Schema not found") : Except RegistryError UInt32) .ok =
        .ok n → sampleIds s x = some n := by
    intro s x n h
    cases hid : sampleIds s x with
    | none =>
      rw [hid] at h
      cases h
    | some m =>
      rw [hid] at h
      exact congrArg some (Except.ok.inj h)
  exact ⟨hanswer, hanswer⟩

theorem sampleIds_distinct : DistinctIds sampleIds := by
  intro s s' x y n hx hy
  unfold sampleIds at hx hy
  split_ifs at hx hy with hx₁ hy₁ hy₂ hx₂ hy₁ hy₂
  · rw [hx₁, hy₁]
  · exact absurd (hx.trans hy.symm) (by decide)
  · exact absurd (hx.trans hy.symm) (by decide)
  · rw [hx₂, hy₂]

/-- A serde for Avro strings and one for Avro numbers. -/
def stringSerde : Binding := ⟨⟨.avro, "\"string\"", [], none⟩, .value⟩

def intSerde : Binding := ⟨⟨.avro, "\"int\"", [], none⟩, .value⟩

/-- Each serde on a topic of its own, with a prewarm in between. -/
def twoTopics : List CacheCall :=
  [.register stringSerde "orders", .prewarm fun _ => sampleRegistry,
    .register intSerde "prices", .register stringSerde "orders", .prewarm fun _ => sampleRegistry]

/-- Both serdes on one topic. -/
def oneTopic : List CacheCall :=
  [.register stringSerde "orders", .register intSerde "orders", .prewarm fun _ => sampleRegistry]

private theorem answered_sample {calls : List CacheCall}
    (h : ∀ registry, .prewarm registry ∈ calls → registry = fun _ => sampleRegistry) :
    Answered sampleIds calls := by
  intro registry hmem round
  rw [h registry hmem]
  exact sampleRegistry_assignsIds

theorem serializer_ids_two_topics :
    FramesOwnIds sampleIds Libs.sample .autoRegister twoTopics ∧
      stringSerde.id (afterCalls Libs.sample .autoRegister twoTopics) "orders" = .ok 1 ∧
      intSerde.id (afterCalls Libs.sample .autoRegister twoTopics) "prices" = .ok 2 := by
  have hanswered : Answered sampleIds twoTopics := by
    apply answered_sample
    simp [twoTopics]
  have hone : OneSchemaEach twoTopics := by
    intro b b' topic hb hb' _
    simp only [twoTopics, List.mem_cons, CacheCall.register.injEq, reduceCtorEq, List.not_mem_nil,
      or_false, false_or] at hb hb'
    grind
  refine ⟨(serializer_ids (by decide) sampleIds_distinct hanswered).1 hone, ?_, ?_⟩
  · decide +kernel
  · decide +kernel

/-- Both serdes frame with the id of the number schema, which was resolved last. -/
theorem frames_foreign_id :
    Answered sampleIds oneTopic ∧ DistinctIds sampleIds ∧
    WarmedFor Libs.sample .autoRegister oneTopic stringSerde "orders" ∧
    stringSerde.id (afterCalls Libs.sample .autoRegister oneTopic) "orders" = .ok 2 ∧
    sampleIds (stringSerde.subject "orders") stringSerde.toLocalSchema = some 1 ∧
    ¬ FramesOwnIds sampleIds Libs.sample .autoRegister oneTopic := by
  have hwarmed : WarmedFor Libs.sample .autoRegister oneTopic stringSerde "orders" :=
    ⟨[.register stringSerde "orders", .register intSerde "orders"], fun _ => sampleRegistry, [],
      rfl, List.mem_cons_self, by decide +kernel⟩
  have hid : stringSerde.id (afterCalls Libs.sample .autoRegister oneTopic) "orders" = .ok 2 := by
    decide +kernel
  refine ⟨answered_sample ?_, sampleIds_distinct, hwarmed, hid, by decide, fun h => ?_⟩
  · simp [oneTopic]
  · exact absurd (h _ _ hwarmed 2 hid) (by decide)

end KrabkaRegistry.Guarantees
