import KrabkaRegistry.Kafkastore.Run

/-!
# What an Id Identifies

`StoreState::register` gives two registrations the same id when their dedup keys are equal.
The key joins the canonical form, the sorted references and the message type by control
characters, and leaves the schema type out.  `ids_identify_iff` says for every sequence of
registrations that ids identify schemas exactly when no two accepted ones are `Ambiguous`,
and `Ambiguous` lists the three ways in which different schemas share a key.
-/

namespace KrabkaRegistry.Guarantees

open KrabkaRegistry.Format (Formats)
open KrabkaRegistry.Format.Json (NulFree)
open KrabkaRegistry.Kafkastore (Defaults)
open KrabkaRegistry.Library (Trace)
open KrabkaRegistry.Store
open StoreState (dedupKey fingerprint)

variable {F : Formats}

/-! ## The key is injective up to its suffix -/

/-- What the dedup key puts after the canonical form. -/
def keySuffix (references : List SchemaReference) (messageType : Option String) : String :=
  if references.isEmpty && messageType.isNone then ""
  else
    "\x00" ++ "\x02".intercalate ((references.map fingerprint).insertionSort (· ≤ ·)) ++ "\x00" ++
      messageType.getD ""

theorem dedupKey_eq (canonical : String) (references : List SchemaReference)
    (messageType : Option String) :
    dedupKey canonical references messageType =
      canonical ++ keySuffix references messageType := by
  unfold dedupKey keySuffix
  split
  · simp
  · simp [String.append_assoc]

/-- Texts that end before the first U+0000 are told apart from what follows. -/
private theorem append_inj_of_nulFree {c c' t t' : List Char} (hc : '\x00' ∉ c) (hc' : '\x00' ∉ c')
    (ht : t = [] ∨ t.head? = some '\x00') (ht' : t' = [] ∨ t'.head? = some '\x00')
    (h : c ++ t = c' ++ t') : c = c' ∧ t = t' := by
  induction c generalizing c' with
  | nil =>
    cases c' with
    | nil => exact ⟨rfl, h⟩
    | cons x c' =>
      -- The suffix would have to start with a character of a canonical form.
      rcases ht with rfl | ht
      · simp at h
      · rw [List.nil_append] at h
        rw [h] at ht
        have hx : x = '\x00' := by simpa using ht
        exact absurd (by simp [hx]) hc'
  | cons x c ih =>
    cases c' with
    | nil =>
      rcases ht' with rfl | ht'
      · simp at h
      · rw [List.nil_append] at h
        rw [← h] at ht'
        have hx : x = '\x00' := by simpa using ht'
        exact absurd (by simp [hx]) hc
    | cons y c' =>
      rw [List.cons_append, List.cons_append] at h
      obtain ⟨rfl, hrest⟩ := List.cons.inj h
      obtain ⟨rfl, rfl⟩ := ih (fun hm => hc (List.mem_cons_of_mem _ hm))
        (fun hm => hc' (List.mem_cons_of_mem _ hm)) hrest
      exact ⟨rfl, rfl⟩

private theorem keySuffix_head (references : List SchemaReference) (messageType : Option String) :
    (keySuffix references messageType).toList = [] ∨
      (keySuffix references messageType).toList.head? = some '\x00' := by
  unfold keySuffix
  split
  · exact .inl (by simp)
  · exact .inr (by simp [String.toList_append])

theorem dedupKey_inj {c c' : String} (hc : NulFree c) (hc' : NulFree c')
    {references references' : List SchemaReference} {messageType messageType' : Option String} :
    dedupKey c references messageType = dedupKey c' references' messageType' ↔
      c = c' ∧ keySuffix references messageType = keySuffix references' messageType' := by
  rw [dedupKey_eq, dedupKey_eq]
  constructor
  · intro h
    have hlist : c.toList ++ (keySuffix references messageType).toList =
        c'.toList ++ (keySuffix references' messageType').toList := by
      rw [← String.toList_append, ← String.toList_append, h]
    obtain ⟨h₁, h₂⟩ := append_inj_of_nulFree hc hc' (keySuffix_head _ _) (keySuffix_head _ _) hlist
    exact ⟨String.toList_inj.mp h₁, String.toList_inj.mp h₂⟩
  · rintro ⟨rfl, h⟩
    rw [h]

/-! ## Identities -/

/-- What the id of a schema stands for. -/
structure Identity where
  ty : SchemaType
  canonical : String
  references : List SchemaReference
  messageType : Option String

/-- The same type, canonical form, references as a multiset, and message type. -/
def Identity.Same (a b : Identity) : Prop :=
  a.ty = b.ty ∧ a.canonical = b.canonical ∧ a.references.Perm b.references ∧
    a.messageType = b.messageType

def Identity.key (a : Identity) : String := dedupKey a.canonical a.references a.messageType

/-- Different identities that the dedup key does not tell apart. -/
inductive Ambiguous (a b : Identity) : Prop where
  /-- The key leaves the type out. -/
  | type : a.canonical = b.canonical → a.references.Perm b.references →
      a.messageType = b.messageType → a.ty ≠ b.ty → Ambiguous a b
  /-- Next to references, an absent message type is written like an empty one. -/
  | emptyMessageType : a.canonical = b.canonical → a.references.Perm b.references →
      a.references ≠ [] → a.messageType ≠ b.messageType →
      a.messageType.getD "" = b.messageType.getD "" → Ambiguous a b
  /-- A separator inside a name, a subject or a message type makes two different lists of
  references and message types read the same. -/
  | separator : a.canonical = b.canonical →
      keySuffix a.references a.messageType = keySuffix b.references b.messageType →
      ¬ (a.references.Perm b.references ∧ a.messageType.getD "" = b.messageType.getD "") →
      Ambiguous a b

private theorem sorted_fingerprints_of_perm {references references' : List SchemaReference}
    (h : references.Perm references') :
    (references.map fingerprint).insertionSort (· ≤ ·) =
      (references'.map fingerprint).insertionSort (· ≤ ·) := by
  have hperm := ((List.perm_insertionSort (· ≤ ·) (references.map fingerprint)).trans
    (h.map fingerprint)).trans (List.perm_insertionSort (· ≤ ·) (references'.map fingerprint)).symm
  exact List.Perm.eq_of_pairwise (fun a b _ _ => le_antisymm)
    (List.pairwise_insertionSort (· ≤ ·) (references.map fingerprint))
    (List.pairwise_insertionSort (· ≤ ·) (references'.map fingerprint)) hperm

private theorem keySuffix_of_perm {references references' : List SchemaReference}
    {messageType messageType' : Option String} (h : references.Perm references')
    (hempty : messageType = messageType' ∨ references ≠ [])
    (hm : messageType.getD "" = messageType'.getD "") :
    keySuffix references messageType = keySuffix references' messageType' := by
  unfold keySuffix
  rw [sorted_fingerprints_of_perm h, hm]
  have hnil : references.isEmpty = references'.isEmpty := by
    rw [Bool.eq_iff_iff, List.isEmpty_iff, List.isEmpty_iff, ← List.length_eq_zero_iff,
      ← List.length_eq_zero_iff, h.length_eq]
  rw [hnil]
  rcases hempty with rfl | hne
  · rfl
  · have hfalse : references'.isEmpty = false := by
      rw [← hnil]
      simpa using hne
    simp [hfalse]

/-- Two identities share a key exactly when they are the same or ambiguous. The canonical text ends
at the first U+0000, so the keys agree in it and in what follows it. -/
theorem key_eq_iff {a b : Identity} (ha : NulFree a.canonical) (hb : NulFree b.canonical) :
    a.key = b.key ↔ a.Same b ∨ Ambiguous a b := by
  rw [Identity.key, Identity.key, dedupKey_inj ha hb]
  constructor
  · rintro ⟨hc, hs⟩
    by_cases hperm : a.references.Perm b.references
    · by_cases hm : a.messageType = b.messageType
      · by_cases hty : a.ty = b.ty
        · exact .inl ⟨hty, hc, hperm, hm⟩
        · exact .inr (.type hc hperm hm hty)
      · by_cases hget : a.messageType.getD "" = b.messageType.getD ""
        · by_cases hnil : a.references = []
          -- Without references the two spellings of "no message type" differ.
          · have hnil' : b.references = [] := by
              rw [hnil] at hperm
              exact hperm.nil_eq.symm
            rw [hnil, hnil'] at hs
            cases ha' : a.messageType with
            | none =>
              cases hb' : b.messageType with
              | none => exact absurd (ha'.trans hb'.symm) hm
              | some m => simp [keySuffix, ha', hb', String.ext_iff] at hs
            | some m =>
              cases hb' : b.messageType with
              | none => simp [keySuffix, ha', hb', String.ext_iff] at hs
              | some m' =>
                rw [ha', hb'] at hm hget
                exact absurd (by simpa using hget) (fun h : m = m' => hm (by rw [h]))
          · exact .inr (.emptyMessageType hc hperm hnil hm hget)
        · exact .inr (.separator hc hs fun h => hget h.2)
    · exact .inr (.separator hc hs fun h => hperm h.1)
  · rintro (⟨_, hc, hperm, hm⟩ | hamb)
    · exact ⟨hc, keySuffix_of_perm hperm (.inl hm) (by rw [hm])⟩
    · cases hamb with
      | type hc hperm hm _ => exact ⟨hc, keySuffix_of_perm hperm (.inl hm) (by rw [hm])⟩
      | emptyMessageType hc hperm hne _ hget => exact ⟨hc, keySuffix_of_perm hperm (.inr hne) hget⟩
      | separator hc hs _ => exact ⟨hc, hs⟩

/-- An ambiguous pair is a pair of different identities. -/
theorem Ambiguous.not_same {a b : Identity} (h : Ambiguous a b) : ¬ a.Same b := by
  rintro ⟨hty, _, hperm, hm⟩
  cases h with
  | type _ _ _ hne => exact hne hty
  | emptyMessageType _ _ _ hne _ => exact hne hm
  | separator _ _ hne => exact hne ⟨hperm, by rw [hm]⟩

/-! ## Sequences of registrations -/

/-- The arguments of one call of `StoreState::register`. -/
structure Call where
  subject : String
  ty : SchemaType
  schema : String
  references : List SchemaReference := []
  messageType : Option String := none

/-- One call: a success leaves the state it returns, a failure leaves the state alone. -/
inductive CallStep (F : Formats) : StoreState → Call → StoreState → Prop where
  | accepted {st st' : StoreState} {c : Call} {reg : Registered} :
      st.register F c.subject c.ty c.schema c.references c.messageType = .ok (reg, st') →
      CallStep F st c st'
  | rejected {st : StoreState} {c : Call} {e : Failure} :
      st.register F c.subject c.ty c.schema c.references c.messageType = .error e →
      CallStep F st c st

/-- The call was accepted in this state, for identity `a`, and returned id `n`. -/
def Accepts (F : Formats) (st : StoreState) (c : Call) (a : Identity) (n : SchemaId) : Prop :=
  ∃ reg st' resolved,
    st.register F c.subject c.ty c.schema c.references c.messageType = .ok (reg, st') ∧
    st.resolveClosure c.references = .ok resolved ∧
    F.parse c.ty c.schema resolved = .ok a.canonical ∧
    a.ty = c.ty ∧ a.references = c.references ∧ a.messageType = c.messageType ∧ reg.id = n

/-- Accepted registrations share an id exactly when they have the same identity. -/
def IdsIdentify (F : Formats) (t : List (StoreState × Call)) : Prop :=
  ∀ p ∈ t, ∀ q ∈ t, ∀ a b n m, Accepts F p.1 p.2 a n → Accepts F q.1 q.2 b m →
    (n = m ↔ a.Same b)

/-- What an accepted call does to the identity index. -/
theorem storeRegister_index {st st' : StoreState} {c : Call} {reg : Registered}
    (h : st.register F c.subject c.ty c.schema c.references c.messageType = .ok (reg, st')) :
    ∃ key, st.identityKey F c.ty c.schema c.references c.messageType = .ok key ∧
      ((st.byCanonical[key]? = some reg.id ∧ st'.byCanonical = st.byCanonical ∧
          st'.maxId = st.maxId) ∨
       (st.byCanonical[key]? = none ∧ reg.id = st.maxId + 1 ∧
          st'.byCanonical = st.byCanonical.insert key reg.id ∧ st'.maxId = reg.id)) := by
  unfold StoreState.register at h
  obtain ⟨key, hkey, h⟩ := bind_ok h
  refine ⟨key, hkey, ?_⟩
  cases hf : st.findUnderSubjectCanonical c.subject key true with
  -- Known under the subject: nothing changes.
  | some existing =>
    simp only [hf] at h
    obtain ⟨rfl, rfl⟩ : existing = reg ∧ st = st' := by simpa [pure, Except.pure] using h
    exact .inl ⟨(Kafkastore.findUnderSubjectCanonical_some hf).1, rfl, rfl⟩
  | none =>
    simp only [hf] at h
    obtain ⟨⟨id, st₁⟩, hassign, h⟩ := bind_ok h
    simp only [pure, Except.pure, Except.ok.injEq, Prod.mk.injEq] at h
    obtain ⟨rfl, rfl⟩ := h
    unfold StoreState.assignId at hassign
    -- Known under another subject, or new.
    cases hc : st.byCanonical[key]? with
    | some n =>
      simp only [hc] at hassign
      obtain ⟨rfl, rfl⟩ : n = id ∧ st = st₁ := by simpa using hassign
      exact .inl ⟨rfl, rfl, rfl⟩
    | none =>
      simp only [hc] at hassign
      split at hassign
      · cases hassign
      · obtain ⟨rfl, rfl⟩ : st.maxId + 1 = id ∧ _ = st₁ := by simpa using hassign
        exact .inr ⟨rfl, rfl, rfl, rfl⟩

/-- The index is injective below the counter and holds every accepted key. -/
private structure Indexed (F : Formats) (t : List (StoreState × Call)) (st : StoreState) : Prop where
  below : ∀ {K : String} {n : SchemaId}, st.byCanonical[K]? = some n → n ≤ st.maxId
  injective : ∀ {K K' : String} {n : SchemaId}, st.byCanonical[K]? = some n →
    st.byCanonical[K']? = some n → K = K'
  holds : ∀ p ∈ t, ∀ a n, Accepts F p.1 p.2 a n → st.byCanonical[a.key]? = some n

/-- The key an accepted call computed is the key of its identity. -/
private theorem accepts_key {st : StoreState} {c : Call} {a : Identity} {n : SchemaId}
    (h : Accepts F st c a n) {key : String}
    (hkey : st.identityKey F c.ty c.schema c.references c.messageType = .ok key) : a.key = key := by
  obtain ⟨_, _, resolved, _, hres, hparse, _, hrefs, hmt, _⟩ := h
  obtain ⟨resolved', canonical, hres', hparse', rfl⟩ := identityKey_ok hkey
  have hc := F.parse_congr hparse hparse'
  rw [Identity.key, hc, hrefs, hmt]

private theorem indexed_step {t : List (StoreState × Call)} {st st' : StoreState} {c : Call}
    (hs : CallStep F st c st') (h : Indexed F t st) : Indexed F (t ++ [(st, c)]) st' := by
  cases hs with
  | @rejected _ _ hrej =>
    refine ⟨h.below, h.injective, ?_⟩
    intro p hp a n ha
    rcases List.mem_append.mp hp with hp | hp
    · exact h.holds p hp a n ha
    · rw [List.mem_singleton.mp hp] at ha
      obtain ⟨reg, st', _, hacc, _⟩ := ha
      simp [hrej] at hacc
  | @accepted _ _ reg hacc =>
    obtain ⟨key, hkey, ⟨hid, hcan, hmax⟩ | ⟨hnone, hid, hcan, hmax⟩⟩ := storeRegister_index hacc
    -- A known identity leaves the index as it is.
    · refine ⟨fun hK => ?_, fun hK hK' => ?_, ?_⟩
      · rw [hcan] at hK
        rw [hmax]
        exact h.below hK
      · rw [hcan] at hK hK'
        exact h.injective hK hK'
      · intro p hp a n ha
        rw [hcan]
        rcases List.mem_append.mp hp with hp | hp
        · exact h.holds p hp a n ha
        · rw [List.mem_singleton.mp hp] at ha
          rw [accepts_key ha hkey]
          obtain ⟨reg', _, _, hacc', _, _, _, _, _, rfl⟩ := ha
          obtain ⟨rfl, -⟩ : reg = reg' ∧ _ := by simpa [hacc] using hacc'
          exact hid
    -- A new identity takes an id above all others.
    · have hold : ∀ {K : String} {n : SchemaId}, st.byCanonical[K]? = some n → n ≠ reg.id := by
        intro K n hK
        rw [hid]
        exact (Int.lt_add_one_of_le (h.below hK)).ne
      refine ⟨fun {K n} hK => ?_, fun {K K' n} hK hK' => ?_, ?_⟩
      · rw [hcan, BTreeMap.getElem?_insert] at hK
        rw [hmax]
        split at hK
        · exact (by simpa using hK : reg.id = n).ge
        · rw [hid]
          exact (h.below hK).trans (Int.le_of_lt (Int.lt_add_one_of_le (le_refl _)))
      · rw [hcan, BTreeMap.getElem?_insert] at hK hK'
        split at hK <;> split at hK'
        · rename_i h₁ h₂
          rw [h₁, h₂]
        · obtain rfl : reg.id = n := by simpa using hK
          exact absurd rfl (hold hK')
        · obtain rfl : reg.id = n := by simpa using hK'
          exact absurd rfl (hold hK)
        · exact h.injective hK hK'
      · intro p hp a n ha
        rw [hcan, BTreeMap.getElem?_insert]
        rcases List.mem_append.mp hp with hp | hp
        · have hK := h.holds p hp a n ha
          have hne : a.key ≠ key := by
            intro heq
            rw [heq, hnone] at hK
            cases hK
          rw [if_neg hne]
          exact hK
        · rw [List.mem_singleton.mp hp] at ha
          rw [if_pos (accepts_key ha hkey)]
          obtain ⟨reg', _, _, hacc', _, _, _, _, _, rfl⟩ := ha
          obtain ⟨rfl, -⟩ : reg = reg' ∧ _ := by simpa [hacc] using hacc'
          rfl

private theorem accepts_nulFree {st : StoreState} {c : Call} {a : Identity} {n : SchemaId}
    (h : Accepts F st c a n) : NulFree a.canonical := by
  obtain ⟨_, _, _, _, _, hparse, _⟩ := h
  exact F.parse_nulFree hparse

/-- For every sequence of registrations from the empty state, ids identify schemas exactly
when no two accepted registrations are ambiguous. -/
theorem ids_identify_iff {d : Defaults} {t : List (StoreState × Call)} {st : StoreState}
    (h : Trace (CallStep F) d.state t st) :
    IdsIdentify F t ↔ ∀ p ∈ t, ∀ q ∈ t, ∀ a b n m, Accepts F p.1 p.2 a n →
      Accepts F q.1 q.2 b m → ¬ Ambiguous a b := by
  have hstart : Indexed F [] d.state := by
    refine ⟨fun hK => ?_, fun hK => ?_, by simp⟩ <;>
      simp [Defaults.state, StoreState.withDefaults] at hK
  have hindexed : Indexed F t st :=
    Trace.history_invariant (I := Indexed F) (C := fun _ _ => True) hstart
      (fun _ _ _ _ _ hs hi => indexed_step hs hi) h fun _ _ => trivial
  -- Equal ids are equal keys, and equal keys are the same identity or an ambiguity.
  have hids : ∀ p ∈ t, ∀ q ∈ t, ∀ a b n m, Accepts F p.1 p.2 a n → Accepts F q.1 q.2 b m →
      (n = m ↔ a.Same b ∨ Ambiguous a b) := by
    intro p hp q hq a b n m ha hb
    have hKa := hindexed.holds p hp a n ha
    have hKb := hindexed.holds q hq b m hb
    rw [← key_eq_iff (accepts_nulFree ha) (accepts_nulFree hb)]
    constructor
    · rintro rfl
      exact hindexed.injective hKa hKb
    · intro hkey
      rw [hkey, hKb] at hKa
      simpa using hKa.symm
  constructor
  · intro hident p hp q hq a b n m ha hb hamb
    have hnm := (hids p hp q hq a b n m ha hb).mpr (.inr hamb)
    exact hamb.not_same ((hident p hp q hq a b n m ha hb).mp hnm)
  · intro hnone p hp q hq a b n m ha hb
    rw [hids p hp q hq a b n m ha hb]
    exact ⟨fun hor => hor.resolve_right (hnone p hp q hq a b n m ha hb), .inl⟩

/-! ### One text, two types -/

/-- The state after a call. -/
def Call.after (F : Formats) (st : StoreState) (c : Call) : StoreState :=
  match st.register F c.subject c.ty c.schema c.references c.messageType with
  | .ok (_, st') => st'
  | .error _ => st

theorem CallStep.after (F : Formats) (st : StoreState) (c : Call) :
    CallStep F st c (c.after F st) := by
  unfold Call.after
  cases h : st.register F c.subject c.ty c.schema c.references c.messageType with
  | ok p => exact .accepted h
  | error e => exact .rejected h

/-- The schema `{"type":"string"}`, as Avro and as JSON Schema. -/
def callAvro : Call :=
  { subject := "a", ty := .avro, schema := "\x7b\"type\":\"string\"\x7d" }

def callJson : Call :=
  { subject := "b", ty := .json, schema := "\x7b\"type\":\"string\"\x7d" }

/-- The two calls, one after the other. -/
def clashCalls : List (StoreState × Call) :=
  [(({} : Defaults).state, callAvro),
   (callAvro.after Formats.sample ({} : Defaults).state, callJson)]

private theorem clashCalls_trace :
    Trace (CallStep Formats.sample) ({} : Defaults).state clashCalls
      (callJson.after Formats.sample (callAvro.after Formats.sample ({} : Defaults).state)) :=
  Trace.snoc (Trace.snoc (Trace.nil _) (CallStep.after _ _ _)) (CallStep.after _ _ _)

private theorem accepts_of_eval (st : StoreState) (c : Call) (canonical : String) (n : SchemaId)
    (hid : (st.register F c.subject c.ty c.schema c.references c.messageType).map (·.1.id) = .ok n)
    (hres : st.resolveClosure c.references = .ok [])
    (hparse : F.parse c.ty c.schema [] = .ok canonical) :
    Accepts F st c ⟨c.ty, canonical, c.references, c.messageType⟩ n := by
  cases h : st.register F c.subject c.ty c.schema c.references c.messageType with
  | error e => simp [h, Except.map] at hid
  | ok p =>
    have hn : p.1.id = n := by simpa [h, Except.map] using hid
    exact ⟨p.1, p.2, [], h, hres, hparse, rfl, rfl, rfl, hn⟩

/-- The Avro schema and the JSON Schema with the same text share id 1. -/
theorem shared_id_across_types :
    ∃ t st, Trace (CallStep Formats.sample) ({} : Defaults).state t st ∧
      ¬ IdsIdentify Formats.sample t := by
  refine ⟨clashCalls, _, clashCalls_trace, ?_⟩
  intro hids
  have havro := accepts_of_eval (F := Formats.sample) ({} : Defaults).state callAvro
    "\x7b\"type\":\"string\"\x7d" 1 (by decide +kernel) (by decide +kernel) (by decide +kernel)
  have hjson := accepts_of_eval (F := Formats.sample)
    (callAvro.after Formats.sample ({} : Defaults).state) callJson
    "\x7b\"type\":\"string\"\x7d" 1 (by decide +kernel) (by decide +kernel) (by decide +kernel)
  have hfirst : (({} : Defaults).state, callAvro) ∈ clashCalls := List.mem_cons_self
  have hsecond : (callAvro.after Formats.sample ({} : Defaults).state, callJson) ∈ clashCalls :=
    List.mem_cons_of_mem _ List.mem_cons_self
  have hsame := (hids _ hfirst _ hsecond _ _ 1 1 havro hjson).mp rfl
  exact absurd hsame.1 (by decide)

/-- The two calls as a case of the equivalence: they are an ambiguous pair. -/
theorem ids_identify_iff_clash :
    IdsIdentify Formats.sample clashCalls ↔ ∀ p ∈ clashCalls, ∀ q ∈ clashCalls, ∀ a b n m,
      Accepts Formats.sample p.1 p.2 a n → Accepts Formats.sample q.1 q.2 b m → ¬ Ambiguous a b :=
  ids_identify_iff clashCalls_trace

end KrabkaRegistry.Guarantees
