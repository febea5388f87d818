import KrabkaRegistry.Library.Trace
import KrabkaRegistry.Reader.Invariant

/-!
# Runs of the Reader

The steps of the reader keep `Inv`, and so does every run.  A reset asks for the log bounds by
the topic's name.  When the topic is recreated just then, the answer is about another topic
than the reader's, and an empty one replaces the live store by an empty one under tokens that
were seen.  `asksItsTopic` is the condition on the steps of a run that leaves this out.
-/

namespace KrabkaRegistry.Reader

open KrabkaRegistry.Format (Formats)
open KrabkaRegistry.Kafkastore
open KrabkaRegistry.Library
open KrabkaRegistry.Library.PartitionLog
open KrabkaRegistry.Store

variable {F : Formats} {d : Defaults}

/-! ## Steps of the reader -/

/-- A reader that is past its first connection knows its topic. -/
theorem Inv.known {s : System} (h : Inv F d s) (hp : s.loop.phase ≠ .connecting) :
    s.loop.topicId ≠ 0 :=
  fun hzero => hp (h.unknown hzero)

/-- A change of phase alone keeps the invariant if the new phase's own condition holds and no
rebuild is claimed that was not there. -/
theorem Inv.setPhase {s : System} (h : Inv F d s) (phase : Phase)
    (hp : s.loop.phase ≠ .connecting) (hphase : PhaseOk s phase)
    (htracks : (s.setPhase phase).Tracks → s.Tracks) : Inv F d (s.setPhase phase) := by
  refine ⟨h.current, h.empty, h.topicId, fun hzero => absurd hzero (h.known hp), h.justified, ?_,
    h.seen, ?_, ?_⟩
  · exact h.tokens.congr (fun _ _ => rfl) rfl rfl rfl
  · intro ht
    have htarget := h.target (htracks ht)
    exact ⟨htarget.holds, htarget.endOffset, htarget.observed, htarget.seen⟩
  · change PhaseOk _ phase
    cases phase with
    | connecting => trivial
    | reading => trivial
    | answered records nextOffset => exact hphase
    | replacing resolved startOffset endOffset => exact hphase
    | resetting startOffset endOffset => exact hphase

/-- What the records of an answer do to the loop. -/
structure Received (F : Formats) (l : Loop) (kept : List TopicRecord) (l' : Loop) : Prop where
  next : l'.next = l.next
  topicId : l'.topicId = l.topicId
  phase : l'.phase = l.phase
  target : l'.target = replay F l.target kept
  endOffset : l'.rebuild.map (·.endOffset) = l.rebuild.map (·.endOffset)
  store : l.rebuild.isSome → l'.store = l.store
  observed : l'.observedBarriers = l.observedBarriers ++ kept.filterMap barrierToken

/-- Two batches received one after the other are one. -/
theorem Received.trans {l l₁ l₂ : Loop} {kept kept' : List TopicRecord}
    (h : Received F l kept l₁) (h' : Received F l₁ kept' l₂) :
    Received F l (kept ++ kept') l₂ := by
  refine ⟨h'.next.trans h.next, h'.topicId.trans h.topicId, h'.phase.trans h.phase, ?_,
    h'.endOffset.trans h.endOffset, ?_, ?_⟩
  · rw [h'.target, h.target, replay_append]
  · intro hsome
    have hsome' : l₁.rebuild.isSome := by
      rw [← Option.isSome_map, h.endOffset, Option.isSome_map]
      exact hsome
    rw [h'.store hsome', h.store hsome]
  · rw [h'.observed, h.observed, List.filterMap_append, List.append_assoc]

/-- A record below the cursor is skipped, one at or above it is applied. -/
private theorem received_one (l : Loop) (r : ℕ × TopicRecord) :
    Received F l (if l.next ≤ r.1 then [r.2] else []) (l.receive F r) := by
  unfold Loop.receive
  rcases Nat.lt_or_ge r.1 l.next with hlt | hge
  · rw [if_pos hlt, if_neg (not_le.mpr hlt)]
    exact ⟨rfl, rfl, rfl, rfl, rfl, fun _ => rfl, by simp⟩
  · rw [if_neg (not_lt.mpr hge), if_pos hge]
    cases hrb : l.rebuild with
    | none =>
      cases ht : barrierToken r.2 with
      | none =>
        refine ⟨?_, ?_, ?_, ?_, ?_, ?_, ?_⟩ <;> simp [Loop.applyToStore, Loop.target, hrb, ht, replay]
      | some token =>
        refine ⟨?_, ?_, ?_, ?_, ?_, ?_, ?_⟩ <;> simp [Loop.applyToStore, Loop.target, hrb, ht, replay]
    | some rebuild =>
      cases ht : barrierToken r.2 with
      | none =>
        refine ⟨?_, ?_, ?_, ?_, ?_, ?_, ?_⟩ <;> simp [Loop.applyToStore, Loop.target, hrb, ht, replay]
      | some token =>
        refine ⟨?_, ?_, ?_, ?_, ?_, ?_, ?_⟩ <;> simp [Loop.applyToStore, Loop.target, hrb, ht, replay]

/-- So a batch applies its records from the cursor on, by induction. -/
theorem received (records : List (ℕ × TopicRecord)) (l : Loop) :
    Received F l ((records.filter fun p => l.next ≤ p.1).map Prod.snd)
      (records.foldl (Loop.receive F) l) := by
  induction records generalizing l with
  | nil => exact ⟨rfl, rfl, rfl, rfl, rfl, fun _ => rfl, by simp⟩
  | cons r records ih =>
    have hone := received_one (F := F) l r
    have hall := hone.trans (ih (l.receive F r))
    rw [hone.next] at hall
    by_cases hr : l.next ≤ r.1
    · simpa [hr] using hall
    · simpa [hr] using hall

/-- Observing barriers waits for nothing new; what is seen afterwards was seen before or is observed
now and waited for. -/
theorem observe_foldl (tokens : List Uuid) (b : BarrierTracker) :
    (tokens.foldl BarrierTracker.observe b).pending = b.pending ∧
    (∀ t ∈ (tokens.foldl BarrierTracker.observe b).seen,
      t ∈ b.seen ∨ t ∈ tokens ∧ t ∈ b.pending) := by
  induction tokens generalizing b with
  | nil => exact ⟨rfl, fun t ht => .inl ht⟩
  | cons token tokens ih =>
    have hpending : (b.observe token).pending = b.pending := by
      unfold BarrierTracker.observe
      split_ifs <;> rfl
    obtain ⟨hp, hs⟩ := ih (b.observe token)
    refine ⟨hp.trans hpending, fun t ht => ?_⟩
    rcases hs t ht with hseen | ⟨hmem, hpend⟩
    · unfold BarrierTracker.observe at hseen
      split_ifs at hseen with hin
      · rcases Finset.mem_insert.mp hseen with rfl | hseen
        · exact .inr ⟨List.mem_cons_self, hin⟩
        · exact .inl hseen
      · exact .inl hseen
    · rw [hpending] at hpend
      exact .inr ⟨List.mem_cons_of_mem _ hmem, hpend⟩

/-- An answer either reaches the end of a rebuild, or there is none: the store that was filled
is live, and the barriers are published.  Or the rebuild goes on. -/
theorem publish_cases (l : Loop) (b : BarrierTracker) (cursor : ℕ) :
    (l.publish b cursor = ({ l with
        next := max l.next cursor, store := l.target, rebuild := none, observedBarriers := [] },
      l.observedBarriers.foldl BarrierTracker.observe b) ∧
      ∀ rebuild ∈ l.rebuild, rebuild.endOffset ≤ max l.next cursor) ∨
    l.rebuild.isSome ∧ l.publish b cursor = ({ l with next := max l.next cursor }, b) := by
  unfold Loop.publish completeRebuild Loop.target
  cases hrb : l.rebuild with
  | none => exact .inl ⟨by simp, by simp⟩
  | some rebuild =>
    by_cases hend : rebuild.endOffset ≤ max l.next cursor
    · refine .inl ⟨by simp only [hend]; rfl, ?_⟩
      intro rb hmem
      obtain rfl : rebuild = rb := Option.some.inj hmem
      exact hend
    · exact .inr ⟨rfl, by simp [hend]⟩

/-- The loop after the records of an answer and before they are published, and what it will
have fetched then. -/
private theorem received_target {P : PartitionLog TopicRecord} {l : Loop} {seen : Finset Uuid}
    (h : Target F d P l seen) {offsets : List ℕ} {c : ℕ} (ha : P.Answers l.next offsets (some c)) :
    Holds F d P (max l.next c) ((P.response offsets).foldl (Loop.receive F) l).target ∧
      ∀ t ∈ ((P.response offsets).foldl (Loop.receive F) l).observedBarriers,
        Below P (max l.bound (max l.next c)) t := by
  have hrec := received (F := F) (P.response offsets) l
  rw [response_filter] at hrec
  constructor
  · obtain ⟨fetched, hf, hahead⟩ := h.holds
    refine ⟨_, hf.advance ha, ?_⟩
    have hread : P.read (fetched ++ offsets.filter fun o => l.next ≤ o) =
        P.read fetched ++ P.read (offsets.filter fun o => l.next ≤ o) := List.filterMap_append
    rw [hrec.target, hread, replay_append]
    exact hahead.replay _
  · intro t ht
    rw [hrec.observed] at ht
    rcases List.mem_append.mp ht with ht | ht
    · exact (h.observed t ht).mono (le_max_left _ _)
    -- The barrier is one of the records of the answer.
    · obtain ⟨r, hr, htoken⟩ := List.mem_filterMap.mp ht
      obtain ⟨o, ho, hro⟩ := List.mem_filterMap.mp hr
      have hlt : o < c := ha.2.2.1 o (List.mem_filter.mp ho).1
      cases r with
      | barrier token present =>
        obtain rfl : token = t := Option.some.inj htoken
        exact ⟨o, lt_max_of_lt_right (lt_max_of_lt_right hlt), present, hro⟩
      | schema | config | mode | deleteSubject | versionHighWater => cases htoken

/-- What handling an answer keeps, and that it changes the live store only when it leaves no
rebuild. -/
private theorem handle_target {P : PartitionLog TopicRecord} {l : Loop} {b : BarrierTracker}
    (h : Target F d P l b.seen) (hb : b.seen ⊆ b.pending) {offsets : List ℕ} {c : ℕ}
    (ha : P.Answers l.next offsets (some c)) {res : Loop × BarrierTracker}
    (hres : l.handle F b (P.response offsets) (some c) = res) :
    Target F d P res.1 res.2.seen ∧ res.1.topicId = l.topicId ∧ res.1.phase = .reading ∧
      res.2.pending = b.pending ∧ res.2.seen ⊆ b.pending ∧
      (res.1.store = l.store ∧ res.2.seen = b.seen ∨ res.1.rebuild = none) := by
  have hstart : Target F d P { l with phase := .reading } b.seen :=
    ⟨h.holds, h.endOffset, h.observed, h.seen⟩
  obtain ⟨hholds, hobserved⟩ := received_target hstart ha
  have hrec := received (F := F) (P.response offsets) { l with phase := .reading }
  unfold Loop.handle at hres
  simp only at hres
  generalize (P.response offsets).foldl (Loop.receive F) { l with phase := .reading } = l₁ at *
  have hnext : l₁.next = l.next := hrec.next
  rw [← hnext] at hholds
  -- Publishing ends the rebuild or finds that it has to go on.
  rcases publish_cases l₁ b c with ⟨hpub, hend⟩ | ⟨hsome, hpub⟩
  -- The barriers are published at the new cursor.
  · obtain ⟨hpending, hseen⟩ := observe_foldl l₁.observedBarriers b
    have hbound : max l.bound (max l.next c) ≤ max l₁.next c := by
      rw [hnext]
      refine max_le ?_ (le_refl _)
      unfold Loop.bound
      cases hrb : l.rebuild with
      | none => exact le_max_left _ _
      | some rebuild =>
        obtain ⟨rebuild₁, hrb₁, heq⟩ := Option.map_eq_some_iff.mp
          (hrec.endOffset.trans (by rw [hrb]; rfl))
        have hle := hend rebuild₁ hrb₁
        rw [heq, hnext] at hle
        exact max_le (le_max_left _ _) hle
    rw [hpub] at hres
    subst hres
    refine ⟨⟨hholds, by simp, by simp, ?_⟩, hrec.topicId, hrec.phase, hpending, ?_, .inr rfl⟩
    · intro t ht
      rcases hseen t ht with ht | ⟨ht, _⟩
      · exact (h.seen t ht).mono (le_trans (le_max_left _ _) hbound)
      · exact (hobserved t ht).mono hbound
    · intro t ht
      rcases hseen t ht with ht | ⟨_, ht⟩
      · exact hb ht
      · exact ht
  -- The rebuild goes on; the barriers wait.
  · obtain ⟨rebuild₁, hrb₁⟩ := Option.isSome_iff_exists.mp hsome
    obtain ⟨rebuild, hrb, heq⟩ := Option.map_eq_some_iff.mp
      (hrec.endOffset.symm.trans (by rw [hrb₁]; rfl))
    replace hrb : l.rebuild = some rebuild := hrb
    replace heq : rebuild.endOffset = rebuild₁.endOffset := heq
    have hbound : max l.bound (max l.next c) ≤
        Loop.bound { l₁ with next := max l₁.next c } := by
      have hl : l.bound = max l.next rebuild.endOffset := by rw [Loop.bound, hrb]
      rw [hl, Loop.bound]
      simp only [hrb₁, hnext]
      rw [heq]
      omega
    rw [hpub] at hres
    subst hres
    refine ⟨⟨hholds, ?_, ?_, ?_⟩, hrec.topicId, hrec.phase, rfl, hb, .inl ⟨?_, rfl⟩⟩
    · intro rb hmem
      obtain rfl : rebuild₁ = rb := Option.some.inj (hrb₁.symm.trans hmem)
      rw [← heq]
      exact h.endOffset rebuild hrb
    · exact fun t ht => (hobserved t ht).mono hbound
    · exact fun t ht => (h.seen t ht).mono (le_trans (le_max_left _ _) hbound)
    · exact hrec.store (Option.isSome_iff_exists.mpr ⟨rebuild, hrb⟩)

/-- Handling an answer keeps the invariant. Either a rebuild goes on and the served store and the
barriers stay, or the store is published together with the barriers below it. -/
theorem Inv.handle {s : System} (h : Inv F d s) {records : List (ℕ × TopicRecord)}
    {nextOffset : Option ℕ} (hp : s.loop.phase = .answered records nextOffset) :
    Inv F d { s with
      loop := (s.loop.handle F s.barriers records nextOffset).1
      barriers := (s.loop.handle F s.barriers records nextOffset).2 } := by
  have htarget := h.target (.inr (.inr ⟨records, nextOffset, hp⟩))
  have hphase := h.phase
  rw [hp] at hphase
  obtain ⟨offsets, rfl, ha⟩ := hphase
  cases nextOffset with
  | none =>
    -- Without a cursor the answer is empty.
    obtain rfl : offsets = [] := ha
    exact h.setPhase .reading (by simp [hp]) trivial fun _ => .inr (.inr ⟨_, _, hp⟩)
  | some c =>
    generalize hres : s.loop.handle F s.barriers (s.followed.response offsets) (some c) = res
    obtain ⟨htarget', hid, hreading, hpending, hseen, hstore⟩ :=
      handle_target htarget h.tokens.seen ha hres
    have hfollowed : s.topics res.1.topicId = s.followed := by rw [hid]; rfl
    refine ⟨h.current, h.empty, ?_, ?_, h.justified, ?_, ?_, ?_, ?_⟩
    · exact hid ▸ h.topicId
    · intro hzero
      exact absurd (hid ▸ hzero) (h.known (by simp [hp]))
    · have htokens : TokensOk { s with barriers := res.2 } :=
        h.tokens.shrink (by rw [hpending]) (by rw [hpending]; exact hseen)
      exact htokens.congr (fun _ _ => rfl) rfl rfl rfl
    · intro t ht
      change ∃ c, Holds F d (s.topics res.1.topicId) c res.1.store ∧ Below (s.topics res.1.topicId) c t
      rw [hfollowed]
      -- A seen barrier was seen before, or it is published with the store just now.
      rcases hstore with ⟨hsame, hseen⟩ | hnone
      · rw [hsame]
        exact h.seen t (hseen ▸ ht)
      · refine ⟨res.1.next, ?_, ?_⟩
        · have hholds := htarget'.holds
          rw [Loop.target, hnone] at hholds
          exact hholds
        · have hbelow := htarget'.seen t ht
          rw [Loop.bound, hnone] at hbelow
          exact hbelow
    · intro _
      change Target F d (s.topics res.1.topicId) res.1 res.2.seen
      rw [hfollowed]
      exact htarget'
    · change PhaseOk _ res.1.phase
      rw [hreading]
      trivial

/-- From an empty partition nothing can have been applied. -/
private theorem holds_empty {c : ℕ} {st : StoreState} (h : Holds F d {} c st) :
    c = 0 ∧ Ahead d.state st := by
  obtain ⟨offsets, hf, hahead⟩ := h
  have hc : c = 0 := Nat.le_zero.mp hf.le
  have hnil : offsets = [] := by
    refine List.eq_nil_iff_forall_not_mem.mpr fun o ho => ?_
    have hlt := hf.below o ho
    rw [hc] at hlt
    exact Nat.not_lt_zero o hlt
  rw [hnil] at hahead
  exact ⟨hc, hahead⟩

/-- No barrier lies in an empty partition. -/
private theorem not_below_empty {c : ℕ} {t : Uuid} : ¬ Below {} c t := by
  rintro ⟨o, _, _, hr⟩
  simp [PartitionLog.record?] at hr

/-- A reader that is connected to the topic it knew, or to the first one, goes on reading. -/
theorem Inv.follow {s : System} (h : Inv F d s)
    (hid : s.loop.topicId = 0 ∨ s.loop.topicId = s.current) :
    Inv F d { s with loop := { s.loop with topicId := s.current, phase := .reading } } := by
  have htarget : Target F d (s.topics s.current)
      { s.loop with topicId := s.current, phase := .reading } s.barriers.seen := by
    rcases hid with hid | hid
    -- Nothing was fetched from a topic that was not known.
    · have hempty := h.target (.inr (.inl hid))
      rw [System.followed, hid, h.empty 0 (.inl rfl)] at hempty
      obtain ⟨hnext, hahead⟩ := holds_empty hempty.holds
      have hcleared : (s.topics s.current).Cleared s.loop.next := by
        rw [hnext]
        exact ⟨Nat.zero_le _, fun o ho => absurd ho (Nat.not_lt_zero o)⟩
      exact ⟨Cleared.holds hcleared hahead,
        fun rebuild hmem => le_trans (hempty.endOffset rebuild hmem) (Nat.zero_le _),
        fun t ht => absurd (hempty.observed t ht) not_below_empty,
        fun t ht => absurd (hempty.seen t ht) not_below_empty⟩
    · have hsame := h.target (.inl hid)
      rw [System.followed, hid] at hsame
      exact ⟨hsame.holds, hsame.endOffset, hsame.observed, hsame.seen⟩
  refine ⟨h.current, h.empty, le_refl _, fun hzero => ?_, h.justified,
    h.tokens.congr (fun _ _ => rfl) rfl rfl rfl, ?_, fun _ => htarget, trivial⟩
  · exact absurd hzero (Nat.ne_of_gt h.current)
  · intro t ht
    obtain ⟨c, hholds, hbelow⟩ := h.seen t ht
    rcases hid with hid | hid
    · rw [System.followed, hid, h.empty 0 (.inl rfl)] at hbelow
      exact absurd hbelow not_below_empty
    · rw [System.followed, hid] at hholds hbelow
      exact ⟨c, hholds, hbelow⟩

/-- A reader that finds a recreated topic invalidates every token. -/
theorem Inv.invalidate {s : System} (h : Inv F d s) (hid : s.loop.topicId ≠ 0) :
    Inv F d { s with
      loop := { s.loop with observedBarriers := [], phase := .replacing s.current none none }
      barriers := s.barriers.invalidateAll } := by
  have hnone : ∀ t, ¬ System.Met { s with
      loop := { s.loop with observedBarriers := [], phase := .replacing s.current none none }
      barriers := s.barriers.invalidateAll } t := by
    intro t ht
    simp [System.Met, BarrierTracker.invalidateAll] at ht
  refine ⟨h.current, h.empty, h.topicId, fun hzero => absurd hzero hid, h.justified, ?_, ?_, ?_,
    ?_⟩
  · have htokens : TokensOk { s with barriers := s.barriers.invalidateAll } :=
      h.tokens.shrink (Finset.empty_subset _) (Finset.empty_subset _)
    exact htokens.congr (fun _ _ => rfl) rfl rfl rfl
  · exact fun t ht => absurd (.inr ht) (hnone t)
  · intro htracks
    have htracks : s.Tracks := by
      rcases htracks with hid | hid | ⟨_, _, hp⟩
      · exact .inl hid
      · exact .inr (.inl hid)
      · cases hp
    have htarget := h.target htracks
    exact ⟨htarget.holds, htarget.endOffset, by simp, fun t ht => absurd (.inr ht) (hnone t)⟩
  · exact ⟨h.current, le_refl _, hnone, fun _ => ⟨by simp, by simp⟩⟩

/-- What a rebuild begins with, for bounds that are those of the topic. Nothing is left before the
start offset, so the snapshot that it starts from holds there. -/
private theorem beginRebuild_target {P : PartitionLog TopicRecord} {l : Loop}
    {seen : Finset Uuid} {live snapshot : StoreState} {a e : ℕ}
    (hb : Bounds P a e fun t => t ∈ l.observedBarriers ∨ t ∈ seen)
    (hsnapshot : Ahead d.state snapshot)
    (hnext : l.next = a) (hstore : (beginRebuild live snapshot a e) = (l.store, l.rebuild)) :
    Target F d P l seen := by
  have hholds : Holds F d P a snapshot := Cleared.holds hb.cleared hsnapshot
  unfold beginRebuild at hstore
  -- With nothing to catch up on the snapshot is served at once; otherwise it is the target of a
  -- rebuild.
  split_ifs at hstore with hle
  · obtain ⟨hlive, hrb⟩ := Prod.mk.inj hstore
    have htarget : l.target = snapshot := by rw [Loop.target, ← hrb, hlive]
    have hbound : l.bound = a := by rw [Loop.bound, ← hrb, hnext]
    refine ⟨?_, by simp [← hrb], ?_, ?_⟩
    · rw [htarget, hnext]
      exact hholds
    · exact fun t ht => hbound ▸ (hb.below t (.inl ht)).mono hle
    · exact fun t ht => hbound ▸ (hb.below t (.inr ht)).mono hle
  · obtain ⟨_, hrb⟩ := Prod.mk.inj hstore
    have htarget : l.target = snapshot := by rw [Loop.target, ← hrb]
    have hbound : l.bound = max a e := by rw [Loop.bound, ← hrb, hnext]
    refine ⟨?_, ?_, ?_, ?_⟩
    · rw [htarget, hnext]
      exact hholds
    · intro rebuild hmem
      rw [← hrb] at hmem
      obtain rfl : (⟨snapshot, e⟩ : Rebuild) = rebuild := Option.some.inj hmem
      exact hb.le_stable
    · exact fun t ht => hbound ▸ (hb.below t (.inl ht)).mono (le_max_right _ _)
    · exact fun t ht => hbound ▸ (hb.below t (.inr ht)).mono (le_max_right _ _)

/-- Beginning the rebuild of a replaced topic: the new target starts below everything, and the old
store is served meanwhile. -/
theorem Inv.replace {s : System} (h : Inv F d s) {resolved a e : ℕ}
    (hp : s.loop.phase = .replacing resolved (some a) (some e)) {store : StoreState}
    {rebuild : Option Rebuild}
    (hb : beginRebuild s.loop.store d.state a e = (store, rebuild)) :
    Inv F d { s with loop := { s.loop with
      store := store, rebuild := rebuild, next := a, topicId := resolved, phase := .reading } } := by
  have hphase := h.phase
  rw [hp] at hphase
  obtain ⟨hpos, hle, hnone, hbounds⟩ := hphase
  refine ⟨h.current, h.empty, hle, fun hzero => absurd hzero (Nat.ne_of_gt hpos), h.justified,
    h.tokens.congr (fun _ _ => rfl) rfl rfl rfl, ?_, ?_, trivial⟩
  · exact fun t ht => absurd (.inr ht) (hnone t)
  · intro htracks
    have hcurrent : resolved = s.current := by
      rcases htracks with hid | hid | ⟨_, _, hanswered⟩
      · exact hid
      · exact absurd hid (Nat.ne_of_gt hpos)
      · cases hanswered
    obtain ⟨hcleared, hend⟩ := hbounds hcurrent
    refine beginRebuild_target (a := a) (e := e) ?_ (.refl d.state) rfl hb
    exact ⟨hcleared a rfl, hend e rfl, fun t ht => absurd ht (hnone t)⟩

/-- The same after an out-of-range offset, where the topic is still the one that was followed. -/
theorem Inv.reset {s : System} (h : Inv F d s) {a e : ℕ}
    (hp : s.loop.phase = .resetting (some a) (some e)) {snapshot store : StoreState}
    {rebuild : Option Rebuild} (hsnapshot : Ahead d.state snapshot)
    (hb : beginRebuild s.loop.store snapshot a e = (store, rebuild)) :
    Inv F d { s with loop := { s.loop with
      store := store, rebuild := rebuild, next := a, phase := .reading } } := by
  have hknown : s.loop.topicId ≠ 0 := h.known (by simp [hp])
  have hphase := h.phase
  rw [hp] at hphase
  obtain ⟨_, hbounds⟩ := hphase
  refine ⟨h.current, h.empty, h.topicId, fun hzero => absurd hzero hknown, h.justified,
    h.tokens.congr (fun _ _ => rfl) rfl rfl rfl, ?_, ?_, trivial⟩
  · intro t ht
    change ∃ c, Holds F d s.followed c store ∧ Below s.followed c t
    unfold beginRebuild at hb
    split_ifs at hb with hle
    -- The log is empty, and with it the live store.
    · obtain ⟨hcleared, _, hbelow⟩ := hbounds a rfl e rfl (.inr hle)
      rw [← (Prod.mk.inj hb).1]
      exact ⟨a, Cleared.holds hcleared hsnapshot, (hbelow t (.inr ht)).mono hle⟩
    · rw [← (Prod.mk.inj hb).1]
      exact h.seen t ht
  · intro htracks
    have hcurrent : s.loop.topicId = s.current := by
      rcases htracks with hid | hid | ⟨_, _, hanswered⟩
      · exact hid
      · exact absurd hid hknown
      · cases hanswered
    exact beginRebuild_target (hbounds a rfl e rfl (.inl hcurrent)) hsnapshot rfl hb

/-! ## Runs -/

/-- The step is not the answer to a reset that finds the log empty in another topic than the
reader's. -/
def asksItsTopic (s : System) : Action → Bool
  | .logEnd =>
    match s.loop.phase with
    | .resetting (some a) none => s.topic.stable ≤ a → s.loop.topicId = s.current
    | _ => true
  | _ => true

/-- Only an answered phase claims to track a topic by its phase. -/
private theorem tracks_setPhase {s : System} {phase : Phase} (h : (s.setPhase phase).Tracks)
    (hphase : ∀ records nextOffset, phase ≠ .answered records nextOffset) : s.Tracks := by
  rcases h with hid | hid | ⟨records, nextOffset, hp⟩
  · exact .inl hid
  · exact .inr (.inl hid)
  · exact absurd hp (hphase records nextOffset)

/-- Bounds that were asked for while the reader's topic is current. -/
private theorem logEnd_bounds {s : System} (h : Inv F d s) {a : ℕ}
    (hcleared : s.followed.Cleared a) (hid : s.loop.topicId = s.current) :
    Bounds s.followed a s.topic.stable s.Met := by
  have htarget := h.target (.inl hid)
  have hstable : s.topic.stable = s.followed.stable := by
    rw [System.topic, System.followed, hid]
  rw [hstable]
  refine ⟨hcleared, le_refl _, fun t ht => ?_⟩
  rcases ht with ht | ht
  · exact (htarget.observed t ht).mono htarget.bound_le
  · exact (htarget.seen t ht).mono htarget.bound_le

/-- The start offset was asked of the topic that was resolved. -/
private theorem logStart_inv {s s' : System} (h : Inv F d s) {offset : ℕ}
    (hn : next F d s (.logStart offset) = some s') : Inv F d s' := by
  simp only [next] at hn
  split_ifs at hn with hcleared
  split at hn
  -- While connecting: the topic is the resolved one, and it is followed only if its id agrees.
  · rename_i resolved hp
    obtain rfl := Option.some.inj hn
    have hphase := h.phase
    rw [hp] at hphase
    obtain ⟨hpos, hle, hnone, _⟩ := hphase
    refine h.setPhase _ (by simp [hp]) ⟨hpos, hle, hnone, ?_⟩ fun ht =>
      tracks_setPhase ht (by simp)
    intro hid
    rw [hid]
    refine ⟨?_, by simp⟩
    rintro a ⟨⟩
    exact hcleared
  · rename_i hp
    obtain rfl := Option.some.inj hn
    refine h.setPhase _ (by simp [hp]) ⟨?_, by simp⟩ fun ht => tracks_setPhase ht (by simp)
    rintro hid a ⟨⟩
    rw [System.followed, hid]
    exact hcleared
  · cases hn

/-- The end offset was asked of that topic too, by hypothesis. -/
private theorem logEnd_inv {s s' : System} (h : Inv F d s) (hC : asksItsTopic s .logEnd = true)
    (hn : next F d s .logEnd = some s') : Inv F d s' := by
  simp only [next] at hn
  have hphase := h.phase
  split at hn
  · rename_i resolved offset hp
    obtain rfl := Option.some.inj hn
    rw [hp] at hphase
    obtain ⟨hpos, hle, hnone, hbounds⟩ := hphase
    refine h.setPhase _ (by simp [hp]) ⟨hpos, hle, hnone, fun hid => ⟨(hbounds hid).1, ?_⟩⟩
      fun ht => tracks_setPhase ht (by simp)
    rintro e ⟨⟩
    rw [hid]
    exact le_refl _
  · rename_i offset hp
    obtain rfl := Option.some.inj hn
    rw [hp] at hphase
    refine h.setPhase _ (by simp [hp]) ⟨hphase.1, ?_⟩ fun ht => tracks_setPhase ht (by simp)
    rintro a ⟨⟩ e ⟨⟩ hor
    -- An empty log is the reader's own by the condition on the step.
    simp only [asksItsTopic, hp, decide_eq_true_eq] at hC
    have hid : s.loop.topicId = s.current := hor.elim id hC
    exact logEnd_bounds h (hphase.1 hid offset rfl) hid
  · cases hn

/-- With both bounds a rebuild begins, by `Inv.replace` or `Inv.reset`. -/
private theorem beginRebuild_inv {s s' : System} (h : Inv F d s)
    (hn : next F d s .beginRebuild = some s') : Inv F d s' := by
  simp only [next] at hn
  split at hn
  · rename_i resolved a e hp
    obtain rfl := Option.some.inj hn
    exact h.replace hp rfl
  · rename_i a e hp
    obtain rfl := Option.some.inj hn
    exact h.reset hp (ahead_snapshot _ _ _ _) rfl
  · cases hn

/-- A fetch answers with records of the followed topic from the cursor on. -/
private theorem fetch_inv {s s' : System} (h : Inv F d s) {offsets : List ℕ}
    {nextOffset : Option ℕ} (hn : next F d s (.fetch offsets nextOffset) = some s') :
    Inv F d s' := by
  simp only [next] at hn
  split at hn
  · rename_i hp
    split_ifs at hn with hcond
    obtain rfl := Option.some.inj hn
    obtain ⟨hid, ha⟩ := hcond
    have htopic : s.topic = s.followed := by rw [System.topic, System.followed, hid]
    rw [htopic] at ha ⊢
    exact h.setPhase _ (by simp [hp]) ⟨offsets, rfl, ha⟩ fun _ => .inl hid
  · cases hn

/-- A failed fetch leads to one of the other phases, whose conditions are then empty or known. -/
private theorem fetchError_inv {s s' : System} (h : Inv F d s) {action : FetchErrorAction}
    (hn : next F d s (.fetchError action) = some s') : Inv F d s' := by
  simp only [next] at hn
  split at hn
  · rename_i hp
    cases action with
    | resetToLogStart =>
      obtain rfl := Option.some.inj hn
      exact h.setPhase _ (by simp [hp]) ⟨by simp, by simp⟩ fun ht => tracks_setPhase ht (by simp)
    | reconnect =>
      obtain rfl := Option.some.inj hn
      exact h.setPhase _ (by simp [hp]) trivial fun ht => tracks_setPhase ht (by simp)
    | refreshTopic =>
      obtain rfl := Option.some.inj hn
      exact h.setPhase _ (by simp [hp]) trivial fun ht => tracks_setPhase ht (by simp)
    | retrySameConnection =>
      obtain rfl := Option.some.inj hn
      exact h
  · cases hn

/-- Connecting resolves a topic; if it is not the followed one, its bounds are asked for first. -/
private theorem connect_inv {s s' : System} (h : Inv F d s)
    (hn : next F d s .connect = some s') : Inv F d s' := by
  simp only [next] at hn
  split at hn
  · split_ifs at hn with hcond
    · obtain rfl := Option.some.inj hn
      exact h.invalidate hcond.1
    · obtain rfl := Option.some.inj hn
      refine h.follow ?_
      rcases not_and_or.mp hcond with hid | hid
      · exact .inl (not_not.mp hid)
      · exact .inr (not_not.mp hid).symm
  · cases hn

/-- The steps of the log append to the current topic. -/
private theorem log_inv {s s' : System} (h : Inv F d s) {action : Action}
    (hlog : (∃ slot, action = .append slot) ∨ (∃ t, action = .order t) ∨ ∃ t, action = .clear t)
    (hn : next F d s action = some s') : Inv F d s' := by
  -- A foreign record carries no reserved token; a barrier of the node's own carries one that it had
  -- not ordered yet, and is cleared when nobody waits for it any more.
  rcases hlog with ⟨slot, rfl⟩ | ⟨t, rfl⟩ | ⟨t, rfl⟩
  · simp only [next] at hn
    split_ifs at hn with hfresh
    obtain rfl := Option.some.inj hn
    refine h.append (Finset.Subset.refl _) ?_ ?_
    · rintro t ht rfl
      exact hfresh ⟨t, h.tokens.pending ht, rfl⟩
    · rintro t ht rfl
      exact absurd ⟨t, ht, rfl⟩ hfresh
  · simp only [next] at hn
    split_ifs at hn with hcond
    obtain rfl := Option.some.inj hn
    refine h.append (Finset.subset_insert _ _) (by simp) ?_
    rintro t' _ ⟨⟩
    exact ⟨hcond.2, Finset.mem_insert_self _ _⟩
  · simp only [next] at hn
    split_ifs at hn with hcond
    obtain rfl := Option.some.inj hn
    refine h.append (Finset.Subset.refl _) ?_ (by simp)
    rintro t' ht' ⟨⟩
    exact hcond.2 ht'

/-- Every step keeps the invariant. The topic, the writers and the reader each have lemmas of their
own; `hC` concerns the end of the log alone. -/
theorem next_inv {s s' : System} {action : Action} (hC : asksItsTopic s action = true)
    (hn : next F d s action = some s') (h : Inv F d s) : Inv F d s' := by
  cases action with
  | append slot => exact log_inv h (.inl ⟨slot, rfl⟩) hn
  | order token => exact log_inv h (.inr (.inl ⟨token, rfl⟩)) hn
  | clear token => exact log_inv h (.inr (.inr ⟨token, rfl⟩)) hn
  | stabilize offset =>
    simp only [next] at hn
    split_ifs at hn with hcond
    obtain rfl := Option.some.inj hn
    exact h.setTopic_slots (extends_stabilize _ hcond.1) rfl
      ((h.justified _).stabilize hcond.1 hcond.2)
  | compact offset =>
    simp only [next] at hn
    split_ifs at hn with hcond
    obtain rfl := Option.some.inj hn
    exact h.setTopic_slots (extends_remove _ _) rfl ((h.justified _).remove hcond)
  | recreate =>
    obtain rfl := Option.some.inj hn
    exact h.recreate
  | reserve token =>
    simp only [next] at hn
    split_ifs at hn with hcond
    obtain rfl := Option.some.inj hn
    exact h.reserve (by simpa using fun hm => hcond (.inr hm))
  | poll token =>
    obtain rfl := Option.some.inj hn
    exact h.poll token
  | cancel token =>
    simp only [next] at hn
    split_ifs at hn with hcond
    obtain rfl := Option.some.inj hn
    exact h.cancel token
  -- The steps of the reader; the bound of a replaced topic is where `hC` is used.
  | connect => exact connect_inv h hn
  | fetch offsets nextOffset => exact fetch_inv h hn
  | handle =>
    simp only [next] at hn
    split at hn
    · rename_i records nextOffset hp
      obtain rfl := Option.some.inj hn
      exact h.handle hp
    · cases hn
  | fetchError action => exact fetchError_inv h hn
  | logStart offset => exact logStart_inv h hn
  | logEnd => exact logEnd_inv h hC hn
  | beginRebuild => exact beginRebuild_inv h hn
  | boundsFailed =>
    simp only [next] at hn
    split at hn
    · rename_i hp
      obtain rfl := Option.some.inj hn
      exact h.setPhase _ (by simp [hp]) trivial fun ht => tracks_setPhase ht (by simp)
    · rename_i hp
      obtain rfl := Option.some.inj hn
      exact h.setPhase _ (by simp [hp]) trivial fun ht => tracks_setPhase ht (by simp)
    · cases hn

/-- A node that has just started satisfies the invariant. -/
theorem start_inv (topicId : ℕ) (hid : topicId ≤ 1) : Inv F d (System.start d topicId) := by
  have hcleared : ({} : PartitionLog TopicRecord).Cleared 0 := ⟨le_refl _, by simp⟩
  refine ⟨Nat.one_pos, fun _ _ => rfl, hid, fun _ => rfl, fun _ => justified_empty, ?_, ?_, ?_,
    trivial⟩
  · refine ⟨Finset.Subset.refl _, Finset.Subset.refl _, ?_, ?_, ?_⟩ <;>
      simp [System.start]
  · simp [System.start]
  · exact fun _ => ⟨Cleared.holds hcleared (.refl _), by simp [System.start], by simp [System.start],
      by simp [System.start]⟩

/-! ## Tokens that are over -/

/-- The token was given out and nobody waits for it any more. -/
def System.Spent (s : System) (t : Uuid) : Prop := t ∈ s.reserved ∧ t ∉ s.barriers.pending

/-- The step ends the wait for a token: its barrier is seen, it is cancelled, or the topic turns
out to have been recreated. -/
def Ends (s : System) (t : Uuid) : Action → Prop
  | .poll token => token = t ∧ (s.barriers.poll t).1 = .seen
  | .cancel token => token = t
  | .connect => t ∈ s.barriers.pending ∧ s.loop.topicId ≠ 0 ∧ s.current ≠ s.loop.topicId
  | _ => False

/-- A barrier that a poll reports was seen. -/
theorem mem_seen_of_poll {b : BarrierTracker} {t : Uuid} (h : (b.poll t).1 = .seen) :
    t ∈ b.seen := by
  unfold BarrierTracker.poll at h
  split_ifs at h with hinv hseen
  exact hseen

/-- A poll adds no waiting token. -/
private theorem poll_pending (b : BarrierTracker) (t : Uuid) :
    (b.poll t).2.pending ⊆ b.pending := by
  unfold BarrierTracker.poll
  split_ifs
  · exact Finset.Subset.refl _
  · exact Finset.erase_subset _ _
  · exact Finset.Subset.refl _

/-- Handling an answer adds no waiting token. -/
private theorem handle_pending (l : Loop) (b : BarrierTracker) (records : List (ℕ × TopicRecord))
    (nextOffset : Option ℕ) : (l.handle F b records nextOffset).2.pending = b.pending := by
  unfold Loop.handle
  cases nextOffset with
  | none => rfl
  | some cursor =>
    simp only
    rcases publish_cases (records.foldl (Loop.receive F) { l with phase := .reading }) b cursor with
      ⟨hpub, _⟩ | ⟨_, hpub⟩
    · rw [hpub]
      exact (observe_foldl _ b).1
    · rw [hpub]

/-- What a step does to the tokens that are waited for. -/
private theorem next_pending {s s' : System} {action : Action}
    (hn : next F d s action = some s') :
    s.reserved ⊆ s'.reserved ∧ ∀ t ∈ s.reserved, t ∈ s'.barriers.pending →
      t ∈ s.barriers.pending := by
  have hsame : s'.reserved = s.reserved → s'.barriers.pending ⊆ s.barriers.pending →
      s.reserved ⊆ s'.reserved ∧ ∀ t ∈ s.reserved, t ∈ s'.barriers.pending →
        t ∈ s.barriers.pending := fun hr hp => ⟨hr ▸ Finset.Subset.refl _, fun _ _ ht => hp ht⟩
  cases action with
  -- A reserved token is new, so it is not among those reserved before.
  | reserve token =>
    simp only [next] at hn
    split_ifs at hn with hcond
    obtain rfl := Option.some.inj hn
    refine ⟨Finset.subset_insert _ _, fun t ht hpend => ?_⟩
    rcases Finset.mem_insert.mp hpend with rfl | hpend
    · exact absurd (.inl ht) hcond
    · exact hpend
  | poll token =>
    obtain rfl := Option.some.inj hn
    exact hsame rfl (poll_pending _ _)
  | cancel token =>
    simp only [next] at hn
    split_ifs at hn with hcond
    obtain rfl := Option.some.inj hn
    exact hsame rfl (Finset.erase_subset _ _)
  | handle =>
    simp only [next] at hn
    split at hn
    · obtain rfl := Option.some.inj hn
      exact hsame rfl (by simp [handle_pending])
    · cases hn
  | connect =>
    simp only [next] at hn
    split at hn
    · split_ifs at hn with hcond
      · obtain rfl := Option.some.inj hn
        exact hsame rfl (Finset.empty_subset _)
      · obtain rfl := Option.some.inj hn
        exact hsame rfl (Finset.Subset.refl _)
    · cases hn
  | recreate =>
    obtain rfl := Option.some.inj hn
    exact hsame rfl (Finset.Subset.refl _)
  | append | stabilize | compact | order | clear =>
    simp only [next] at hn
    split_ifs at hn
    obtain rfl := Option.some.inj hn
    exact hsame rfl (Finset.Subset.refl _)
  | fetch | fetchError | logStart | logEnd | beginRebuild | boundsFailed =>
    -- These steps change nothing but the loop.
    simp only [next] at hn
    repeat' split at hn
    all_goals first
      | (obtain rfl := Option.some.inj hn; exact hsame rfl (Finset.Subset.refl _))
      | cases hn

/-- A token that is spent stays spent. -/
theorem System.Spent.step {s s' : System} {action : Action} {t : Uuid} (h : s.Spent t)
    (hn : next F d s action = some s') : s'.Spent t := by
  obtain ⟨hreserved, hpending⟩ := next_pending hn
  exact ⟨hreserved h.1, fun ht => h.2 (hpending t h.1 ht)⟩

/-- Nobody waits for a token after a step that ends it. -/
theorem Ends.spent {s s' : System} {action : Action} {t : Uuid} (hend : Ends s t action)
    (hinv : Inv F d s) (hn : next F d s action = some s') : s'.Spent t := by
  cases action with
  -- Three steps end a wait: a poll that succeeds, a cancellation, and a reconnect that drops every
  -- waiting token.
  | poll token =>
    obtain ⟨rfl, hseen⟩ := hend
    obtain rfl := Option.some.inj hn
    have hmem := mem_seen_of_poll hseen
    refine ⟨hinv.tokens.pending (hinv.tokens.seen hmem), ?_⟩
    unfold BarrierTracker.poll at hseen ⊢
    split_ifs at hseen ⊢ with hinvalid
    exact Finset.notMem_erase _ _
  | cancel token =>
    obtain rfl : token = t := hend
    simp only [next] at hn
    split_ifs at hn with hcond
    obtain rfl := Option.some.inj hn
    exact ⟨hcond, Finset.notMem_erase _ _⟩
  | connect =>
    obtain ⟨hpend, hcond⟩ := hend
    simp only [next] at hn
    split at hn
    · rw [if_pos hcond] at hn
      obtain rfl := Option.some.inj hn
      exact ⟨hinv.tokens.pending hpend, Finset.notMem_empty _⟩
    · cases hn
  | append | stabilize | compact | recreate | reserve | order | clear | fetch | handle | fetchError
  | logStart | logEnd | beginRebuild | boundsFailed => exact hend.elim

/-- On every run that meets the condition, the invariant holds and the tokens that were ended
are spent. -/
theorem run_inv {topicId : ℕ} (hid : topicId ≤ 1) {t : List (System × Action)} {s : System}
    (h : Trace (fun s action s' => next F d s action = some s') (System.start d topicId) t s)
    (hC : ∀ p ∈ t, asksItsTopic p.1 p.2 = true) :
    Inv F d s ∧ ∀ p ∈ t, ∀ token, Ends p.1 token p.2 → s.Spent token := by
  refine Trace.history_invariant
    (I := fun t s => Inv F d s ∧ ∀ p ∈ t, ∀ token, Ends p.1 token p.2 → s.Spent token)
    (C := fun s action => asksItsTopic s action = true) ⟨start_inv topicId hid, by simp⟩ ?_ h hC
  intro t s₁ action s₂ hcond hn ⟨hinv, hspent⟩
  refine ⟨next_inv hcond hn hinv, fun p hp token hend => ?_⟩
  rcases List.mem_append.mp hp with hp | hp
  · exact (hspent p hp token hend).step hn
  · rw [List.mem_singleton.mp hp] at hend
    exact hend.spent hinv hn

end KrabkaRegistry.Reader
