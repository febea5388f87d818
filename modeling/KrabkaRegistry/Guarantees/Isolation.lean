import KrabkaRegistry.Guarantees.Ids

/-!
# What a Registration Changes for Others

Content is stored once for each id and overwritten whenever a record of the id is applied,
while several versions may share the id.  `register_isolated_iff` says when a registration
leaves every other version as it was: when its identity is new, or nobody else is bound to
its id, or the content it writes is the one already stored.  `overwritten_text` is a
registration that changes the text another subject returns.
-/

namespace KrabkaRegistry.Guarantees

open KrabkaRegistry.Format (Formats)
open KrabkaRegistry.Kafkastore
open KrabkaRegistry.Library (Trace)
open KrabkaRegistry.Store
open StoreState (contentOf)

variable {F : Formats} {d : Defaults}

/-- Every version but `w` of subject `s` reads the same in both states. -/
def OthersUnchanged (st st' : StoreState) (s : String) (w : SchemaVersion) : Prop :=
  ∀ t v includeDeleted, (t, v) ≠ (s, w) →
    st'.version t (some v) includeDeleted = st.version t (some v) includeDeleted

/-- The version that an identity with id `n` takes in subject `s`: the one it has there, or
the next one. -/
def takenVersion (st : StoreState) (s : String) (n : SchemaId) : SchemaVersion :=
  match (entries st s).find? fun e => e.id = n with
  | some e => e.version
  | none => st.nextVersion s

/-- If the identity of the request has an id that some other version is bound to, then the
content stored under the id is the content of the request. -/
def WritesStoredContent (F : Formats) (st : StoreState) (req : RegisterSchema) : Prop :=
  ∀ resolved text K n, Reads F st req resolved text K → st.byCanonical[K]? = some n →
    (∃ t v e, (t, v) ≠ (req.subject, takenVersion st req.subject n) ∧
      entryOf st t v = some e ∧ e.id = n) →
    st.byId[n]? = some (requestContent req text)

/-- A decided version is the one the id takes. -/
theorem decided_version {st : StoreState} {s key : String} {reg : Registered}
    (h : Decides st s key reg) (hid : st.byCanonical[key]? = some reg.id) :
    reg.version = takenVersion st s reg.id := by
  cases h with
  | existing _ hfind hv => simp [takenVersion, hfind, hv]
  | reused _ hnone hv =>
    have hfind : (entries st s).find? (fun e => e.id = reg.id) = none := by simpa using hnone
    simp [takenVersion, hfind, hv]
  | fresh hnone _ _ _ => simp [hid] at hnone

section Apply

variable {st : StoreState} {req : RegisterSchema} {text : String} {reg : Registered}

/-- The entries of other versions stay as they are. -/
private theorem entryOf_other (hwf : WellFormed st) {t : String} {v : SchemaVersion}
    (hne : (t, v) ≠ (req.subject, reg.version)) :
    entryOf (applyTopicRecord F st (req.record text reg)) t v = entryOf st t v := by
  rw [entryOf_record hwf, if_neg]
  rintro ⟨rfl, rfl⟩
  exact hne rfl

/-- Other versions read the same if the content under the new record's id stays, or if they
are bound to other ids. -/
private theorem version_other (hst : Consistent F st) {t : String} {v : SchemaVersion}
    (hne : (t, v) ≠ (req.subject, reg.version))
    (hkeep : ∀ e, entryOf st t v = some e → e.id = reg.id →
      st.byId[reg.id]? = some (requestContent req text)) (includeDeleted : Bool) :
    (applyTopicRecord F st (req.record text reg)).version t (some v) includeDeleted =
      st.version t (some v) includeDeleted := by
  rw [version_some (applyTopicRecord_wellFormed hst.wellFormed _), version_some hst.wellFormed,
    entryOf_other hst.wellFormed hne]
  cases he : entryOf st t v with
  | none => rfl
  | some e =>
    have hbyId : (applyTopicRecord F st (req.record text reg)).byId[e.id]? = st.byId[e.id]? := by
      rw [byId_record]
      by_cases hid : e.id = reg.id
      · rw [if_pos hid, hid, hkeep e he hid]
      · rw [if_neg hid]
    simp only [Option.filter]
    split <;> simp [hbyId]

/-- A version bound to the new record's id reads the new content. -/
private theorem content_of_unchanged (hst : Consistent F st) {t : String} {v : SchemaVersion}
    {e : VersionEntry} (hne : (t, v) ≠ (req.subject, reg.version)) (he : entryOf st t v = some e)
    (hid : e.id = reg.id)
    (h : (applyTopicRecord F st (req.record text reg)).version t (some v) true =
      st.version t (some v) true) :
    st.byId[reg.id]? = some (requestContent req text) := by
  rw [version_some (applyTopicRecord_wellFormed hst.wellFormed _), version_some hst.wellFormed,
    entryOf_other hst.wellFormed hne, he] at h
  obtain ⟨content, hcontent⟩ := hst.entry_stored he
  rw [hid] at hcontent
  have heq : requestContent req text = content := by
    have h' := h
    simp only [Option.filter, Bool.true_or, if_true, Option.bind_some, byId_record, hid,
      hcontent, Option.map_some, Option.some.injEq, VersionedSchema.mk.injEq, true_and] at h'
    obtain ⟨hty, hschema, hrefs, hmt, hextra⟩ := h'
    cases content
    simp only at hty hschema hrefs hmt hextra
    rw [← hty, ← hschema, ← hrefs, ← hmt, ← hextra]
  rw [hcontent, heq]

end Apply

/-- In every replayed state, a registration that appends its record leaves all other versions
unchanged exactly when it writes the content that is stored already, wherever another version
shares it. -/
theorem register_isolated_iff {log : List TopicRecord} {req : RegisterSchema} {r : TopicRecord}
    {reg : Registered}
    (hmode : (replay F d.state log).effectiveMode req.subject ≠ "IMPORT")
    (h : Kafkastore.register F (replay F d.state log) req = .ok ([r], reg)) :
    OthersUnchanged (replay F d.state log) (applyTopicRecord F (replay F d.state log) r)
        req.subject reg.version ↔
      WritesStoredContent F (replay F d.state log) req := by
  have hst : Consistent F (replay F d.state log) := replay_consistent (d.state_consistent F) log
  obtain ⟨resolved, text, K, hreads, ⟨hnil, _⟩ | ⟨hrec, _, _, hdec⟩⟩ := register_ok hmode h
  · simp at hnil
  obtain rfl : r = req.record text reg := by simpa using hrec
  constructor
  · rintro hun resolved' text' K' n hreads' hK' ⟨t, v, e, hne, he, hid⟩
    obtain ⟨rfl, rfl⟩ := Reads.unique hreads hreads'
    -- The identity is indexed, so its id is the one that was assigned.
    obtain rfl : reg.id = n := by
      rcases hdec.id_cases with hid' | ⟨hnone, _⟩
      · simpa [hid'] using hK'
      · simp [hnone] at hK'
    rw [← decided_version hdec hK'] at hne
    exact content_of_unchanged hst hne he hid (hun t v true hne)
  · intro hkeep t v includeDeleted hne
    refine version_other hst hne (fun e he hid => ?_) includeDeleted
    rcases hdec.id_cases with hK | ⟨_, hfresh⟩
    · refine hkeep resolved text K reg.id hreads hK ⟨t, v, e, ?_, he, hid⟩
      rwa [← decided_version hdec hK]
    -- A fresh id has no version yet.
    · obtain ⟨content, hcontent⟩ := hst.entry_stored he
      have hle := hst.id_le_maxId hcontent
      rw [hid, hfresh] at hle
      exact absurd hle (not_le_of_gt (Int.lt_add_one_of_le (le_refl _)))

/-! ### Another spelling of the same document -/

/-- The empty document again, with a blank in it, under another subject. -/
def requestEmptySpaced : RegisterSchema :=
  { subject := "b", ty := .json, schema := "\x7b \x7d" }

/-- The log and the state after the first spelling was registered. -/
def spacedWorld : World := (World.start {}).after Formats.sample (.register requestEmpty)

private theorem register_single (st : StoreState) (req : RegisterSchema) (reg : Registered)
    (hreg : (Kafkastore.register F st req).map (·.2) = .ok reg)
    (hlen : (Kafkastore.register F st req).map (·.1.length) = .ok 1) :
    ∃ r, Kafkastore.register F st req = .ok ([r], reg) := by
  obtain ⟨recs, h⟩ := register_of_answer st req reg hreg
  rw [h] at hlen ⊢
  obtain ⟨r, rfl⟩ : ∃ r, recs = [r] := by
    simpa [Except.map, List.length_eq_one_iff] using hlen
  exact ⟨r, rfl⟩

/-- What version 1 of `a` returns as its text after a request's record is applied. -/
def textAfter (st : StoreState) (req : RegisterSchema) : Result (Option String) :=
  (Kafkastore.register Formats.sample st req).map fun p =>
    ((replay Formats.sample st p.1).version "a" (some 1) true).map (·.schema)

/-- Registering the second spelling under `b` changes what version 1 of `a` returns. -/
theorem overwritten_text :
    ∃ t w r reg, Run Formats.sample {} mayDropNothing t w ∧
      w.state.effectiveMode requestEmptySpaced.subject = "READWRITE" ∧
      Kafkastore.register Formats.sample w.state requestEmptySpaced = .ok ([r], reg) ∧
      ¬ OthersUnchanged w.state (applyTopicRecord Formats.sample w.state r)
        requestEmptySpaced.subject reg.version := by
  have hrun : Run Formats.sample {} mayDropNothing _ spacedWorld :=
    Trace.snoc (Trace.nil (World.start {})) (Step.after (by decide +kernel))
  obtain ⟨r, hr⟩ := register_single (F := Formats.sample) spacedWorld.state requestEmptySpaced
    ⟨1, 1⟩ (by decide +kernel) (by decide +kernel)
  refine ⟨_, spacedWorld, r, ⟨1, 1⟩, hrun, by decide +kernel, hr, ?_⟩
  intro hun
  have hbefore : (spacedWorld.state.version "a" (some 1) true).map (·.schema) =
      some "\x7b\x7d" := by decide +kernel
  have hafter : textAfter spacedWorld.state requestEmptySpaced = .ok (some "\x7b \x7d") := by
    decide +kernel
  rw [textAfter, hr] at hafter
  have hsame := congrArg (Option.map (·.schema)) (hun "a" 1 true (by decide))
  have heq : some "\x7b\x7d" = some "\x7b \x7d" := by
    rw [← hbefore, ← hsame]
    simpa [Except.map] using hafter
  exact absurd heq (by decide)

/-- The same spelling again, under another subject, changes nothing for the first one. -/
theorem register_isolated_iff_same_text :
    ∃ r, Kafkastore.register Formats.sample spacedWorld.state { requestEmpty with subject := "b" } =
        .ok ([r], ⟨1, 1⟩) ∧
      OthersUnchanged spacedWorld.state (applyTopicRecord Formats.sample spacedWorld.state r)
        "b" 1 := by
  obtain ⟨r, hr⟩ := register_single (F := Formats.sample) spacedWorld.state
    { requestEmpty with subject := "b" } ⟨1, 1⟩ (by decide +kernel) (by decide +kernel)
  refine ⟨r, hr, ?_⟩
  have hstate : spacedWorld.state = replay Formats.sample ({} : Defaults).state spacedWorld.log :=
    rfl
  rw [hstate] at hr ⊢
  refine (register_isolated_iff (by decide +kernel) hr).mpr ?_
  rintro resolved text K n hreads hK -
  have hreads' : Reads Formats.sample (replay Formats.sample ({} : Defaults).state spacedWorld.log)
      { requestEmpty with subject := "b" } [] "\x7b\x7d" "\x7b\x7d" :=
    ⟨by decide +kernel, by decide +kernel, by decide +kernel⟩
  obtain ⟨rfl, rfl⟩ := Reads.unique hreads' hreads
  have hid : (replay Formats.sample ({} : Defaults).state spacedWorld.log).byCanonical["\x7b\x7d"]? =
      some 1 := by decide +kernel
  obtain rfl : 1 = n := by simpa [hid] using hK
  rfl

end KrabkaRegistry.Guarantees
