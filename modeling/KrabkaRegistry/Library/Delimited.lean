import Mathlib.Data.List.Forall2

/-!
# Texts That Are Read One Way

A text is read one way when what is printed like it, up to what follows, has the same meaning and
is followed by the same rest.  Tokens are read one way because no delimiter stands in them, and
lists because a separator or the closing symbol follows each of their parts.

- `token_append`: two tokens that start the same text are equal;
- `delimited_reads`: a separated list is read one way when its parts are;
- `terminated_inj`: a terminated list has one reading.
-/

namespace KrabkaRegistry.Library.Delimited

variable {σ α : Type} {stop : σ → Prop}

/-- What follows a text: nothing, or a delimiter first. -/
def Stops (stop : σ → Prop) (rest : List σ) : Prop := ∀ c ∈ rest.head?, stop c

theorem stops_nil : Stops stop [] := by simp [Stops]

theorem stops_cons {c : σ} {rest : List σ} (h : stop c) : Stops stop (c :: rest) := by
  simpa [Stops] using h

/-- The text of `a` is read one way: a text that starts like it is that of a value related to
`a`. -/
def Reads (stop : σ → Prop) (text : α → List σ) (R : α → α → Prop) (a : α) : Prop :=
  ∀ b rest rest', Stops stop rest → Stops stop rest' →
    text a ++ rest = text b ++ rest' → R a b ∧ rest = rest'

/-- Two tokens without delimiters that start the same text are equal. -/
theorem token_append {s t rest rest' : List σ} (hs : ∀ c ∈ s, ¬ stop c) (ht : ∀ c ∈ t, ¬ stop c)
    (hrest : Stops stop rest) (hrest' : Stops stop rest')
    (h : s ++ rest = t ++ rest') : s = t ∧ rest = rest' := by
  induction s generalizing t with
  | nil =>
    cases t with
    | nil => exact ⟨rfl, h⟩
    | cons d t =>
      have hstop : stop d := hrest d (by rw [List.nil_append] at h; simp [h])
      exact absurd hstop (ht d List.mem_cons_self)
  | cons c s ih =>
    cases t with
    | nil =>
      have hstop : stop c := hrest' c (by rw [List.nil_append] at h; simp [← h])
      exact absurd hstop (hs c List.mem_cons_self)
    | cons d t =>
      simp only [List.cons_append, List.cons.injEq] at h
      obtain ⟨rfl, h⟩ := h
      obtain ⟨rfl, hsame⟩ := ih (fun x hx => hs x (List.mem_cons_of_mem c hx))
        (fun x hx => ht x (List.mem_cons_of_mem c hx)) h
      exact ⟨rfl, hsame⟩

/-! ## Separated lists -/

/-- What follows the first part of a list: every other part after a separator. -/
def separated (sep : σ) : List (List σ) → List σ
  | [] => []
  | part :: parts => sep :: part ++ separated sep parts

/-- The parts of a list with separators between them. -/
def delimited (sep : σ) : List (List σ) → List σ
  | [] => []
  | part :: parts => part ++ separated sep parts

theorem separated_stops {sep close : σ} (hsep : stop sep) (hclose : stop close)
    (parts : List (List σ)) (rest : List σ) :
    Stops stop (separated sep parts ++ close :: rest) := by
  cases parts with
  | nil => exact stops_cons hclose
  | cons part parts => exact stops_cons hsep

section Lists

variable {sep close : σ} {text : α → List σ} {R : α → α → Prop}

private theorem separated_reads (hsep : stop sep) (hclose : stop close) (hne : sep ≠ close) :
    ∀ {as bs : List α} {rest rest' : List σ}, (∀ a ∈ as, Reads stop text R a) →
      separated sep (as.map text) ++ close :: rest = separated sep (bs.map text) ++ close :: rest' →
      List.Forall₂ R as bs ∧ rest = rest'
  | [], [], rest, rest', _, h => by
    simp only [List.map_nil, separated, List.nil_append, List.cons.injEq, true_and] at h
    exact ⟨.nil, h⟩
  | [], b :: bs, rest, rest', _, h => by
    simp only [List.map_nil, List.map_cons, separated, List.nil_append, List.cons_append,
      List.cons.injEq] at h
    exact absurd h.1.symm hne
  | a :: as, [], rest, rest', _, h => by
    simp only [List.map_nil, List.map_cons, separated, List.nil_append, List.cons_append,
      List.cons.injEq] at h
    exact absurd h.1 hne
  | a :: as, b :: bs, rest, rest', hreads, h => by
    simp only [List.map_cons, separated, List.cons_append, List.append_assoc, List.cons.injEq,
      true_and] at h
    obtain ⟨hab, hrest⟩ := hreads a List.mem_cons_self b _ _
      (separated_stops hsep hclose _ _) (separated_stops hsep hclose _ _) h
    obtain ⟨hall, hsame⟩ := separated_reads hsep hclose hne
      (fun x hx => hreads x (List.mem_cons_of_mem a hx)) hrest
    exact ⟨.cons hab hall, hsame⟩

/-- A separated list is read one way up to its closing symbol, when its parts are and none of them
starts with a delimiter. -/
theorem delimited_reads (hsep : stop sep) (hclose : stop close) (hne : sep ≠ close)
    (hstart : ∀ a, ∃ c rest, text a = c :: rest ∧ ¬ stop c) {as bs : List α}
    {rest rest' : List σ} (hreads : ∀ a ∈ as, Reads stop text R a)
    (h : delimited sep (as.map text) ++ close :: rest = delimited sep (bs.map text) ++ close :: rest') :
    List.Forall₂ R as bs ∧ rest = rest' := by
  cases as with
  -- An empty list begins with the closing mark, a nonempty one does not.
  | nil =>
    cases bs with
    | nil =>
      simp only [List.map_nil, delimited, List.nil_append, List.cons.injEq, true_and] at h
      exact ⟨.nil, h⟩
    | cons b bs =>
      obtain ⟨c, tail, hb, hc⟩ := hstart b
      simp only [List.map_nil, List.map_cons, delimited, List.nil_append, hb, List.cons_append,
        List.cons.injEq] at h
      exact absurd (h.1 ▸ hclose) hc
  | cons a as =>
    cases bs with
    | nil =>
      obtain ⟨c, tail, ha, hc⟩ := hstart a
      simp only [List.map_nil, List.map_cons, delimited, List.nil_append, ha, List.cons_append,
        List.cons.injEq] at h
      exact absurd (h.1 ▸ hclose) hc
    | cons b bs =>
      simp only [List.map_cons, delimited, List.append_assoc] at h
      obtain ⟨hab, hrest⟩ := hreads a List.mem_cons_self b _ _
        (separated_stops hsep hclose _ _) (separated_stops hsep hclose _ _) h
      obtain ⟨hall, hsame⟩ := separated_reads hsep hclose hne
        (fun x hx => hreads x (List.mem_cons_of_mem a hx)) hrest
      exact ⟨.cons hab hall, hsame⟩

end Lists

/-! ## Terminated lists -/

/-- The parts of a list, each with its closing symbol. -/
def terminated (close : σ) (parts : List (List σ)) : List σ :=
  parts.flatMap fun part => part ++ [close]

/-- A terminated list is read one way when its closing symbol stands in none of its parts. -/
theorem terminated_inj {close : σ} :
    ∀ {parts parts' : List (List σ)}, (∀ part ∈ parts, close ∉ part) →
      (∀ part ∈ parts', close ∉ part) → terminated close parts = terminated close parts' →
      parts = parts'
  | [], [], _, _, _ => rfl
  | [], part :: parts, _, _, h => absurd h (by simp [terminated])
  | part :: parts, [], _, _, h => absurd h (by simp [terminated])
  | part :: parts, part' :: parts', hfree, hfree', h => by
    simp only [terminated, List.flatMap_cons, List.append_assoc, List.singleton_append] at h
    obtain ⟨rfl, htail⟩ := @token_append σ (· = close) part part' _ _
      (fun c hc heq => hfree part List.mem_cons_self (heq ▸ hc))
      (fun c hc heq => hfree' part' List.mem_cons_self (heq ▸ hc))
      (stops_cons rfl) (stops_cons rfl) h
    rw [terminated_inj (fun p hp => hfree p (List.mem_cons_of_mem part hp))
      (fun p hp => hfree' p (List.mem_cons_of_mem part hp)) (List.cons.inj htail).2]

end KrabkaRegistry.Library.Delimited
