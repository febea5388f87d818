import KrabkaRegistry.Format.Diff
import KrabkaRegistry.Kafkastore.Codec
import KrabkaRegistry.Library.Delimited

/-!
# How the Printer and the Differ Read Reserved Ranges

A reserved range holds an inclusive start and an exclusive end, both optional.  `write_reserved`
prints a clause for each range and takes `start + 1` for a missing end; `compare_reserved` takes 0.

- `readAlike_iff`: the exact condition on the ranges under which the printed clauses cover the
  numbers that the differ derives.
-/

namespace KrabkaRegistry.Guarantees

open KrabkaRegistry.Format.Protobuf
open KrabkaRegistry.Library.Delimited
open KrabkaRegistry.Kafkastore.Codec (IsI32)

/-! ## Clauses -/

/-- A `reserved` clause: one number, or a range with both ends in it. -/
inductive Clause where
  | single (number : Int)
  | range (first last : Int)

/-- The line of a clause, without its end. -/
def Clause.line (depth : ℕ) : Clause → List Char
  | .single number => (indent depth ++ "reserved ").toList ++ ((toString number).toList ++ [';'])
  | .range first last =>
    (indent depth ++ "reserved ").toList ++
      ((toString first).toList ++ (" to ".toList ++ ((toString last).toList ++ [';'])))

def Clause.text (depth : ℕ) (clause : Clause) : String :=
  String.ofList (clause.line depth ++ ['\n'])

def Clause.Covers : Clause → Int → Prop
  | .single number, n => n = number
  | .range first last, n => first ≤ n ∧ n ≤ last

/-- The reserved ranges of a message are printed without overflow, as clauses that cover the
numbers `compare_reserved` derives from them.  The clauses stand before the reserved names. -/
def ReadAlike (message : DescriptorProto) (depth : ℕ) : Prop :=
  ∃ (clauses : List Clause) (names : String),
    writeReserved { message with reservedRange := [] } depth = .ok names ∧
    writeReserved message depth = .ok (String.join (clauses.map (Clause.text depth)) ++ names) ∧
    ∀ n, (∃ clause ∈ clauses, clause.Covers n) ↔ n ∈ reservedNumbers message.reservedRange

/-! ## The printed text says which clauses it holds -/

/-- A clause is printed on one line. -/
theorem newline_not_mem_line (depth : ℕ) (clause : Clause) : '\n' ∉ clause.line depth := by
  have hindent : '\n' ∉ (indent depth).toList := by
    rw [indent]
    induction depth with
    | zero => decide
    | succ depth ih =>
      rw [List.replicate_succ, String.join_cons, String.toList_append, List.mem_append]
      exact not_or.mpr ⟨by decide, ih⟩
  have hnumeral : ∀ n : Int, '\n' ∉ n.repr.toList := by
    intro n hmem
    rcases toString_int_chars n hmem with h | h
    · exact absurd h (by decide)
    · exact absurd h (by decide)
  cases clause with
  | single number => simp [Clause.line, hindent, hnumeral]
  | range first last => simp [Clause.line, hindent, hnumeral]

/-- What may stand in a numeral. -/
def NotNumeral (c : Char) : Prop := ¬ (c.isDigit ∨ c = '-')

/-- A numeral is read up to the first character that is none of its own. -/
theorem numeral_append {m n : Int} {rest rest' : List Char} (hrest : Stops NotNumeral rest)
    (hrest' : Stops NotNumeral rest')
    (h : (toString m).toList ++ rest = (toString n).toList ++ rest') : m = n ∧ rest = rest' := by
  have hchars : ∀ k : Int, ∀ c ∈ (toString k).toList, ¬ NotNumeral c :=
    fun k c hc hnot => hnot (toString_int_chars k hc)
  obtain ⟨htext, hsame⟩ := token_append (hchars m) (hchars n) hrest hrest' h
  exact ⟨toString_int_inj (String.toList_inj.mp htext), hsame⟩

/-- Different clauses have different lines. -/
theorem line_injective (depth : ℕ) : Function.Injective (Clause.line depth) := by
  have hsemicolon : ∀ rest, Stops NotNumeral (';' :: rest) := fun rest =>
    stops_cons (by unfold NotNumeral; decide)
  have hspace : ∀ rest, Stops NotNumeral (" to ".toList ++ rest) := fun rest =>
    stops_cons (c := ' ') (by unfold NotNumeral; decide)
  -- A line is the number up to the first character that belongs to no numeral, and that character
  -- tells the two kinds of clause.
  intro clause clause' h
  cases clause with
  | single number =>
    cases clause' with
    | single number' =>
      obtain ⟨rfl, -⟩ := numeral_append (hsemicolon _) (hsemicolon _) (List.append_cancel_left h)
      rfl
    | range first last =>
      obtain ⟨-, hrest⟩ := numeral_append (hsemicolon _) (hspace _) (List.append_cancel_left h)
      exact absurd hrest (by simp)
  | range first last =>
    cases clause' with
    | single number =>
      obtain ⟨-, hrest⟩ := numeral_append (hspace _) (hsemicolon _) (List.append_cancel_left h)
      exact absurd hrest (by simp)
    | range first' last' =>
      obtain ⟨rfl, hrest⟩ := numeral_append (hspace _) (hspace _) (List.append_cancel_left h)
      obtain ⟨rfl, -⟩ := numeral_append (hsemicolon _) (hsemicolon _)
        (List.append_cancel_left hrest)
      rfl

/-- The printed block is its lines, each ended by a newline. -/
theorem join_text_toList (depth : ℕ) (clauses : List Clause) :
    (String.join (clauses.map (Clause.text depth))).toList =
      terminated '\n' (clauses.map (Clause.line depth)) := by
  induction clauses with
  | nil => rfl
  | cons clause clauses ih =>
    rw [List.map_cons, String.join_cons, String.toList_append, ih, Clause.text, String.toList_ofList]
    rfl

/-- The printed clauses are read one way. -/
theorem join_text_injective (depth : ℕ) :
    Function.Injective fun clauses : List Clause =>
      String.join (clauses.map (Clause.text depth)) := by
  intro clauses clauses' h
  have hlines := congrArg String.toList h
  simp only [join_text_toList] at hlines
  have hfree : ∀ (l : List Clause), ∀ part ∈ l.map (Clause.line depth), '\n' ∉ part := by
    intro l part hpart
    obtain ⟨clause, -, rfl⟩ := List.mem_map.mp hpart
    exact newline_not_mem_line depth clause
  exact List.map_injective_iff.mpr (line_injective depth)
    (terminated_inj (hfree clauses) (hfree clauses') hlines)

/-! ## What is printed, and when -/

/-- The start of a range, with the default that both sides use. -/
def startOf (range : ReservedRange) : Int := range.start.getD 0

/-- The inclusive end that the printer computes. -/
def lastOf (range : ReservedRange) : Int := range.stop.getD (startOf range + 1) - 1

/-- The `i32` additions of the printer stay in the type. -/
def FitsI32 (range : ReservedRange) : Prop := IsI32 (startOf range + 1) ∧ IsI32 (lastOf range)

/-- The clause of a range. -/
def clauseOf (range : ReservedRange) : Clause :=
  if startOf range = lastOf range then .single (startOf range) else .range (startOf range) (lastOf range)

/-- The clause printed for a range covers the numbers from its start to its last. -/
theorem clauseOf_covers_iff (range : ReservedRange) (n : Int) :
    (clauseOf range).Covers n ↔ startOf range ≤ n ∧ n ≤ lastOf range := by
  rw [clauseOf]
  split
  · rename_i heq
    rw [Clause.Covers, ← heq]
    omega
  · exact Iff.rfl

/-- A range of one number is printed as that number. -/
theorem text_single (depth : ℕ) (n : Int) :
    Clause.text depth (.single n) = indent depth ++ "reserved " ++ toString n ++ ";\n" := by
  rw [← String.toList_inj]
  simp [Clause.text, Clause.line]

/-- A longer one is printed with both bounds, the upper one inclusive. -/
theorem text_range (depth : ℕ) (m n : Int) :
    Clause.text depth (.range m n) =
      indent depth ++ "reserved " ++ toString m ++ " to " ++ toString n ++ ";\n" := by
  rw [← String.toList_inj]
  simp [Clause.text, Clause.line]

/-- The checked conversion passes the numbers that fit and changes none. -/
theorem checkedI32_eq_ok_iff {n k : Int} : checkedI32 n = .ok k ↔ IsI32 n ∧ n = k := by
  rw [checkedI32]
  split
  · rename_i h
    simp [IsI32, h]
  · rename_i h
    exact ⟨fun heq => absurd heq (by simp), fun heq => absurd heq.1 h⟩

/-- A range is printed when both printed bounds fit. -/
theorem writeReservedRange_eq_ok_iff {depth : ℕ} {range : ReservedRange} {text : String} :
    writeReservedRange depth range = .ok text ↔
      FitsI32 range ∧ text = (clauseOf range).text depth := by
  -- Both branches of the source print the clause; only the two conversions can fail.
  have hprinted : (if startOf range = lastOf range then
        (Except.ok (indent depth ++ "reserved " ++ toString (startOf range) ++ ";\n") : Result String)
      else
        .ok (indent depth ++ "reserved " ++ toString (startOf range) ++ " to " ++
          toString (lastOf range) ++ ";\n")) = .ok ((clauseOf range).text depth) := by
    rw [clauseOf]
    split
    · rw [text_single]
    · rw [text_range]
  constructor
  · intro h
    obtain ⟨next, hnext, h⟩ := bind_ok h
    obtain ⟨stop, hstop, h⟩ := bind_ok h
    obtain ⟨hfirst, rfl⟩ := checkedI32_eq_ok_iff.mp hnext
    obtain ⟨hlast, rfl⟩ := checkedI32_eq_ok_iff.mp hstop
    exact ⟨⟨hfirst, hlast⟩, (Except.ok.inj (hprinted.symm.trans h)).symm⟩
  · rintro ⟨⟨hfirst, hlast⟩, rfl⟩
    have hnext : checkedI32 (range.start.getD 0 + 1) = .ok (startOf range + 1) :=
      checkedI32_eq_ok_iff.mpr ⟨hfirst, rfl⟩
    have hstop : checkedI32 (range.stop.getD (startOf range + 1) - 1) = .ok (lastOf range) :=
      checkedI32_eq_ok_iff.mpr ⟨hlast, rfl⟩
    rw [← hprinted, writeReservedRange, hnext]
    dsimp only [bind, Except.bind]
    rw [hstop]
    rfl

/-- A list of ranges is printed when every one of them is. -/
theorem mapM_writeReservedRange_eq_ok_iff {depth : ℕ} {ranges : List ReservedRange}
    {texts : List String} :
    ranges.mapM (writeReservedRange depth) = .ok texts ↔
      (∀ range ∈ ranges, FitsI32 range) ∧
        texts = ranges.map fun range => (clauseOf range).text depth := by
  induction ranges generalizing texts with
  | nil => simp [pure, Except.pure, eq_comm]
  | cons range ranges ih =>
    rw [List.mapM_cons, List.forall_mem_cons, List.map_cons]
    constructor
    · intro h
      obtain ⟨text, htext, h⟩ := bind_ok h
      obtain ⟨rest, hrest, h⟩ := bind_ok h
      obtain ⟨hfits, rfl⟩ := writeReservedRange_eq_ok_iff.mp htext
      obtain ⟨hall, rfl⟩ := ih.mp hrest
      exact ⟨⟨hfits, hall⟩, (Except.ok.inj h).symm⟩
    · rintro ⟨⟨hfits, hall⟩, rfl⟩
      rw [writeReservedRange_eq_ok_iff.mpr ⟨hfits, rfl⟩, ih.mpr ⟨hall, rfl⟩]
      rfl

/-- The reserved numbers are those of the half-open ranges. -/
theorem mem_reservedNumbers {ranges : List ReservedRange} {n : Int} :
    n ∈ reservedNumbers ranges ↔
      ∃ range ∈ ranges, startOf range ≤ n ∧ n < range.stop.getD 0 := by
  rw [reservedNumbers, List.mem_flatMap]
  refine exists_congr fun range => and_congr_right fun _ => ?_
  simp only [List.mem_map, List.bind_eq_flatMap, List.mem_flatMap, List.mem_range, List.pure_def,
    List.mem_singleton, startOf]
  constructor
  · rintro ⟨-, ⟨i, hi, rfl⟩, rfl⟩
    omega
  · rintro ⟨hstart, hstop⟩
    refine ⟨n - range.start.getD 0, ⟨(n - range.start.getD 0).toNat, ?_, ?_⟩, ?_⟩
    · omega
    · omega
    · omega

/-- Ranges that are printed as the numbers derived from them. -/
def SameNumbers (ranges : List ReservedRange) : Prop :=
  ∀ n, (∃ range ∈ ranges, startOf range ≤ n ∧ n ≤ lastOf range) ↔
    ∃ range ∈ ranges, startOf range ≤ n ∧ n < range.stop.getD 0

/-- The printed clauses are those of the ranges, so both sides are compared as sets of numbers. -/
theorem readAlike_iff_numbers (message : DescriptorProto) (depth : ℕ) :
    ReadAlike message depth ↔
      (∀ range ∈ message.reservedRange, FitsI32 range) ∧
      SameNumbers message.reservedRange := by
  have hcovers : ∀ n, (∃ clause ∈ message.reservedRange.map clauseOf, clause.Covers n) ↔
      ∃ range ∈ message.reservedRange, startOf range ≤ n ∧ n ≤ lastOf range := by
    intro n
    simp only [List.mem_map, exists_exists_and_eq_and, clauseOf_covers_iff]
  have hjoined : String.join (message.reservedRange.map fun range => (clauseOf range).text depth) =
      String.join ((message.reservedRange.map clauseOf).map (Clause.text depth)) := by
    rw [List.map_map]
    rfl
  constructor
  · rintro ⟨clauses, names, hnames, htext, hsame⟩
    obtain ⟨texts, hranges, htext⟩ := bind_ok htext
    obtain ⟨hfits, rfl⟩ := mapM_writeReservedRange_eq_ok_iff.mp hranges
    obtain rfl := Except.ok.inj hnames
    -- What follows the clauses is the same text, so the clauses are those of the ranges.
    have hclauses : message.reservedRange.map clauseOf = clauses := by
      apply join_text_injective depth
      have hcancel := Except.ok.inj htext
      rw [hjoined] at hcancel
      simpa using hcancel
    subst hclauses
    exact ⟨hfits, fun n => by rw [← hcovers, hsame, mem_reservedNumbers]⟩
  · rintro ⟨hfits, hsame⟩
    refine ⟨message.reservedRange.map clauseOf, _, rfl, ?_, fun n => ?_⟩
    · rw [writeReserved, mapM_writeReservedRange_eq_ok_iff.mpr ⟨hfits, rfl⟩, ← hjoined]
      simp [bind, Except.bind, pure, Except.pure]
    · rw [hcovers, hsame, mem_reservedNumbers]

/-! ## When both sides agree -/

/-- The starts and ends are `i32` values. -/
def HoldsI32 (ranges : List ReservedRange) : Prop :=
  ∀ range ∈ ranges, (∀ start ∈ range.start, IsI32 start) ∧ ∀ stop ∈ range.stop, IsI32 stop

/-- The defaults and the arithmetic of the two sides make no difference. -/
structure BoundsAgree (ranges : List ReservedRange) : Prop where
  /-- No start is the greatest `i32`, and no end is the least. -/
  inner : ∀ range ∈ ranges, range.start ≠ some i32Max ∧ range.stop ≠ some (-2147483648)
  /-- What is printed for a missing end is derived from another range. -/
  printed : ∀ range ∈ ranges, range.stop = none → 0 ≤ startOf range →
    ∃ other ∈ ranges, ∃ stop, other.stop = some stop ∧
      startOf other ≤ startOf range ∧ startOf range < stop
  /-- What is derived for a missing end, up to 0, is printed for other ranges. -/
  derived : ∀ range ∈ ranges, range.stop = none → ∀ n, startOf range < n → n < 0 →
    ∃ other ∈ ranges, (other.stop = none ∧ n = startOf other) ∨
      ∃ stop, other.stop = some stop ∧ startOf other ≤ n ∧ n < stop

/-- With bounds of the source's integer type only two of them can overflow: the greatest start and
the least end. -/
theorem fitsI32_iff {range : ReservedRange} (hstart : ∀ start ∈ range.start, IsI32 start)
    (hstop : ∀ stop ∈ range.stop, IsI32 stop) :
    FitsI32 range ↔ range.start ≠ some i32Max ∧ range.stop ≠ some (-2147483648) := by
  obtain ⟨start, stop⟩ := range
  simp only [FitsI32, startOf, lastOf, IsI32, i32Max] at *
  cases start with
  | none =>
    cases stop with
    | none => simp
    | some stop =>
      have hstop := hstop stop rfl
      simp only [Option.getD_none, Option.getD_some, ne_eq, Option.some.injEq, reduceCtorEq,
        not_false_eq_true, true_and]
      omega
  | some start =>
    have hstart := hstart start rfl
    cases stop with
    | none =>
      simp only [Option.getD_none, Option.getD_some, ne_eq, Option.some.injEq, reduceCtorEq,
        not_false_eq_true, and_true]
      omega
    | some stop =>
      have hstop := hstop stop rfl
      simp only [Option.getD_some, ne_eq, Option.some.injEq]
      omega

/-- Without an end the printed range is its start. -/
theorem lastOf_none {range : ReservedRange} (h : range.stop = none) :
    lastOf range = startOf range := by
  rw [lastOf, h, Option.getD_none]
  omega

/-- The end is exclusive in the descriptor and inclusive in the text. -/
theorem lastOf_some {range : ReservedRange} {stop : Int} (h : range.stop = some stop) :
    lastOf range = stop - 1 := by
  rw [lastOf, h, Option.getD_some]

section Numbers

variable {ranges : List ReservedRange}

/-- A range without end prints a number that the descriptor does not reserve, so another range has
to. -/
theorem SameNumbers.printed (h : SameNumbers ranges) {range : ReservedRange} (hr : range ∈ ranges)
    (hnone : range.stop = none) (hnonneg : 0 ≤ startOf range) :
    ∃ other ∈ ranges, ∃ stop, other.stop = some stop ∧
      startOf other ≤ startOf range ∧ startOf range < stop := by
  -- The start is printed, so some range derives it; one without an end stops before 0.
  obtain ⟨other, hother, hle, hstop⟩ :=
    (h (startOf range)).mp ⟨range, hr, le_rfl, (lastOf_none hnone).ge⟩
  cases hend : other.stop with
  | none =>
    rw [hend, Option.getD_none] at hstop
    omega
  | some stop =>
    rw [hend, Option.getD_some] at hstop
    exact ⟨other, hother, stop, hend, hle, hstop⟩

/-- Below zero such a range reserves numbers that it does not print, so others have to print them.
-/
theorem SameNumbers.derived (h : SameNumbers ranges) {range : ReservedRange} (hr : range ∈ ranges)
    (hnone : range.stop = none) {n : Int} (hlt : startOf range < n) (hneg : n < 0) :
    ∃ other ∈ ranges, (other.stop = none ∧ n = startOf other) ∨
      ∃ stop, other.stop = some stop ∧ startOf other ≤ n ∧ n < stop := by
  obtain ⟨other, hother, hle, hlast⟩ :=
    (h n).mpr ⟨range, hr, hlt.le, by rw [hnone, Option.getD_none]; exact hneg⟩
  refine ⟨other, hother, ?_⟩
  cases hend : other.stop with
  | none =>
    rw [lastOf_none hend] at hlast
    exact .inl ⟨rfl, le_antisymm hlast hle⟩
  | some stop =>
    rw [lastOf_some hend] at hlast
    exact .inr ⟨stop, rfl, hle, by omega⟩

theorem BoundsAgree.sameNumbers (h : BoundsAgree ranges) : SameNumbers ranges := by
  intro n
  constructor
  -- A printed number is reserved: by its own range, or by the one that covers a range without end.
  · rintro ⟨range, hr, hle, hlast⟩
    cases hend : range.stop with
    | none =>
      rw [lastOf_none hend] at hlast
      obtain rfl : n = startOf range := le_antisymm hlast hle
      by_cases hnonneg : 0 ≤ startOf range
      · obtain ⟨other, hother, stop, hstop, hbelow, habove⟩ := h.printed range hr hend hnonneg
        exact ⟨other, hother, hbelow, by rw [hstop]; exact habove⟩
      · exact ⟨range, hr, le_rfl, by rw [hend, Option.getD_none]; omega⟩
    | some stop =>
      rw [lastOf_some hend] at hlast
      exact ⟨range, hr, hle, by rw [hend, Option.getD_some]; omega⟩
  -- A reserved number is printed, where a range without end reserves those up to zero.
  · rintro ⟨range, hr, hle, hstop⟩
    cases hend : range.stop with
    | none =>
      rw [hend, Option.getD_none] at hstop
      rcases hle.eq_or_lt with heq | hlt
      · exact ⟨range, hr, hle, by rw [lastOf_none hend]; exact heq.ge⟩
      · obtain ⟨other, hother, ⟨hnone, heq⟩ | ⟨stop, hsome, hbelow, habove⟩⟩ :=
          h.derived range hr hend n hlt hstop
        · exact ⟨other, hother, heq.ge, by rw [lastOf_none hnone]; exact heq.le⟩
        · exact ⟨other, hother, hbelow, by rw [lastOf_some hsome]; omega⟩
    | some stop =>
      rw [hend, Option.getD_some] at hstop
      exact ⟨range, hr, hle, by rw [lastOf_some hend]; omega⟩

end Numbers

/-- Printer and differ read a list of reserved ranges alike exactly when their defaults make no
difference. -/
theorem readAlike_iff (message : DescriptorProto) (depth : ℕ)
    (hi32 : HoldsI32 message.reservedRange) :
    ReadAlike message depth ↔ BoundsAgree message.reservedRange := by
  have hfits : ∀ range ∈ message.reservedRange, FitsI32 range ↔
      range.start ≠ some i32Max ∧ range.stop ≠ some (-2147483648) := fun range hr =>
    fitsI32_iff (hi32 range hr).1 (hi32 range hr).2
  rw [readAlike_iff_numbers]
  constructor
  · rintro ⟨hall, hsame⟩
    exact {
      inner := fun range hr => (hfits range hr).mp (hall range hr)
      printed := fun range hr => SameNumbers.printed hsame hr
      derived := fun range hr hnone n => SameNumbers.derived hsame hr hnone }
  · intro h
    exact ⟨fun range hr => (hfits range hr).mpr (h.inner range hr), h.sameNumbers⟩

/-- A range without end is harmless where another one covers it. -/
theorem readAlike_covered :
    ReadAlike { reservedRange := [⟨some 2, some 3⟩, ⟨some 9, some 12⟩, ⟨some 10, none⟩] } 1 := by
  refine (readAlike_iff _ 1 ?_).mpr ⟨?_, ?_, ?_⟩
  · simp [HoldsI32, IsI32, i32Max]
  · simp [i32Max]
  · simp [startOf]
  · simp [startOf]
    omega

/-- A range without an end is printed as its start and derives nothing, and the greatest start
overflows although the range has an end. -/
theorem readAlike_fails :
    ¬ ReadAlike { reservedRange := [⟨some 5, none⟩] } 1 ∧
      ¬ ReadAlike { reservedRange := [⟨some i32Max, some i32Max⟩] } 1 := by
  rw [readAlike_iff_numbers, readAlike_iff_numbers]
  constructor
  · rintro ⟨-, hsame⟩
    have hfive := (hsame 5).mp ⟨_, List.mem_singleton_self _, le_rfl, le_rfl⟩
    simp [startOf] at hfive
  · rintro ⟨hfits, -⟩
    have hnext := (hfits _ (List.mem_singleton_self _)).1
    simp [IsI32, startOf, i32Max] at hnext

end KrabkaRegistry.Guarantees
