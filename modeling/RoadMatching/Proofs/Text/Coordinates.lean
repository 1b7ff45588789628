import Mathlib.Data.List.TakeWhile
import RoadMatching.Text.WellKnownText

/-!
Points read back of their well-known text.

The text of a number is not looked at as such: if it is read as digits and a power of ten at all, then
it has no character that ends a word, and it starts as a number does.

* `Decimal.Literal.of_unsigned?`: the characters of what is read as a finite number.
* `Numeral.IsExact`: a number that is read back of its text.
* `WellKnownText.tokens_append`: a word is gathered up to the first character that ends it.
* `WellKnownText.point?_point`: a point with exact coordinates is read back.
-/

namespace RoadMatching

namespace Decimal

/-- The characters of the text of a finite number. -/
def isNumeric (c : Char) : Bool :=
  isDigit c || c == '.' || c == 'e' || c == 'E' || c == '-' || c == '+'

lemma isNumeric_of_isDigit {c : Char} (h : isDigit c = true) : isNumeric c = true := by
  simp [isNumeric, h]

/-- An integer is read of digits. -/
lemma isNumeric_of_digits? {cs : List Char} {n : Nat} (h : digits? cs = some n) :
    ∀ c ∈ cs, isNumeric c = true := by
  rw [digits?] at h
  split at h
  · cases h
  · next hall =>
    intro c hc
    simp only [Bool.or_eq_true, not_or, Bool.not_eq_true, Bool.not_eq_false',
      List.all_eq_true] at hall
    exact isNumeric_of_isDigit (hall.2 c hc)

/-- A power of ten is read of its mark, a sign and digits. -/
lemma Literal.isNumeric_of_exponent? {cs : List Char} {e : Int} (h : exponent? cs = some e) :
    ∀ c ∈ cs, isNumeric c = true := by
  unfold exponent? at h
  split at h
  · exact List.forall_mem_nil _
  · next mark rest =>
    split at h
    · next hmark =>
      refine List.forall_mem_cons.2 ⟨?_, ?_⟩
      · rcases Bool.or_eq_true_iff.1 hmark with hmark | hmark <;>
          simp [isNumeric, beq_iff_eq.1 hmark]
      · split at h
        all_goals
          obtain ⟨_, hread, -⟩ := Option.map_eq_some_iff.1 h
          obtain ⟨n, hn, -⟩ := Option.bind_eq_some_iff.1 hread
        · exact List.forall_mem_cons.2 ⟨by decide, isNumeric_of_digits? hn⟩
        · exact List.forall_mem_cons.2 ⟨by decide, isNumeric_of_digits? hn⟩
        · exact isNumeric_of_digits? hn
    · cases h

/-- Digits in front of characters of a number. -/
lemma isNumeric_of_dropWhile {cs : List Char} (h : ∀ c ∈ cs.dropWhile isDigit, isNumeric c = true) :
    ∀ c ∈ cs, isNumeric c = true := by
  have hsplit : cs.takeWhile isDigit ++ cs.dropWhile isDigit = cs := List.takeWhile_append_dropWhile
  rw [← hsplit]
  exact List.forall_mem_append.2
    ⟨fun c hc => isNumeric_of_isDigit (List.mem_takeWhile_imp hc), h⟩

/-- A text with digits in front starts with one. -/
lemma exists_isDigit_of_takeWhile {cs : List Char} (h : cs.takeWhile isDigit ≠ []) :
    ∃ c rest, cs = c :: rest ∧ isDigit c = true := by
  cases cs with
  | nil => exact absurd rfl h
  | cons c rest =>
    refine ⟨c, rest, rfl, ?_⟩
    by_contra hc
    exact h (List.takeWhile_cons_of_neg hc)

/-- What is read as a finite number starts with a digit or a point, and is made of the characters of
a number. -/
lemma Literal.of_unsigned? {negative sign : Bool} {cs : List Char} {n : Nat} {e : Int}
    (h : unsigned? negative cs = some (.finite sign n e)) :
    (∃ c rest, cs = c :: rest ∧ (isDigit c || c == '.') = true) ∧
      ∀ c ∈ cs, isNumeric c = true := by
  unfold unsigned? at h
  dsimp only at h
  split at h
  · cases h
  split at h
  · cases h
  have hstarts : cs.takeWhile isDigit ≠ [] →
      ∃ c rest, cs = c :: rest ∧ (isDigit c || c == '.') = true := fun hwhole => by
    obtain ⟨c, rest, hcs, hc⟩ := exists_isDigit_of_takeWhile hwhole
    exact ⟨c, rest, hcs, by rw [hc, Bool.true_or]⟩
  split at h
  · next more hpoint =>
    dsimp only at h
    split at h
    · cases h
    · obtain ⟨exponent, hexponent, -⟩ := Option.map_eq_some_iff.1 h
      refine ⟨?_, isNumeric_of_dropWhile ?_⟩
      · by_cases hwhole : cs.takeWhile isDigit = []
        · have hsplit : cs.takeWhile isDigit ++ cs.dropWhile isDigit = cs :=
            List.takeWhile_append_dropWhile
          rw [hwhole, List.nil_append, hpoint] at hsplit
          exact ⟨'.', more, hsplit.symm, by decide⟩
        · exact hstarts hwhole
      · rw [hpoint]
        exact List.forall_mem_cons.2
          ⟨by decide, isNumeric_of_dropWhile (isNumeric_of_exponent? hexponent)⟩
  · dsimp only at h
    split at h
    · cases h
    · next hsome =>
      obtain ⟨exponent, hexponent, -⟩ := Option.map_eq_some_iff.1 h
      exact ⟨hstarts (by simpa using hsome),
        isNumeric_of_dropWhile (isNumeric_of_exponent? hexponent)⟩

/-- A text that starts with a digit or a point has no sign. -/
lemma Literal.read?_ofList {c : Char} {rest : List Char}
    (h : (isDigit c || c == '.') = true) :
    read? (String.ofList (c :: rest)) = unsigned? false (c :: rest) := by
  unfold read?
  rw [String.toList_ofList]
  split
  · next heq =>
    cases heq
    exact absurd h (by decide)
  · next heq =>
    cases heq
    exact absurd h (by decide)
  · rfl

end Decimal

/-! ### Numbers -/

variable {K : Type} [Numeral K]

/-- The text of the number has digits, and the number is the one that they say. -/
def Numeral.IsExact (x : K) : Prop :=
  ∃ negative digits exponent,
    Decimal.Literal.read? (Numeral.plain x) = some (.finite negative digits exponent) ∧
      Numeral.ofDecimal negative digits exponent = x

namespace WellKnownText

/-- No character of a number ends a word. -/
lemma endsWord_eq_false {c : Char} (h : Decimal.isNumeric c = true) : endsWord c = false := by
  by_contra hends
  simp only [endsWord, isBlank, Bool.not_eq_false, Bool.or_eq_true, beq_iff_eq] at hends
  rcases hends with ((((((rfl | rfl) | rfl) | rfl) | rfl) | rfl) | rfl) | rfl <;>
    exact absurd h (by decide)

/-- The token of an exact number is the number. No character in it ends a word. -/
lemma ofWord_plain {x : K} (h : Numeral.IsExact x) :
    ofWord (Numeral.plain x).toList = .number x ∧ (Numeral.plain x).toList ≠ [] ∧
      ∀ c ∈ (Numeral.plain x).toList, endsWord c = false := by
  obtain ⟨negative, digits, exponent, hread, rfl⟩ := h
  set text := Numeral.plain (Numeral.ofDecimal negative digits exponent : K) with htext
  have hnumber : Numeral.read? text = some (Numeral.ofDecimal negative digits exponent : K) := by
    rw [Numeral.read?, hread]
    rfl
  have htail : ∀ c cs, text.toList = c :: cs → c ≠ '+' → startsNumber c = true →
      ofWord text.toList = .number (Numeral.ofDecimal negative digits exponent : K) := by
    intro c cs hcs hplus hstarts
    rw [hcs, ofWord, if_pos hstarts, if_neg (by simpa using hplus), ← hcs, String.ofList_toList,
      hnumber]
  unfold Decimal.Literal.read? at hread
  split at hread
  · next cs hcs =>
    obtain ⟨-, hchars⟩ := Decimal.Literal.of_unsigned? hread
    refine ⟨htail _ cs hcs (by decide) (by decide), by simp [hcs], ?_⟩
    rw [hcs]
    exact List.forall_mem_cons.2 ⟨by decide, fun c hc => endsWord_eq_false (hchars c hc)⟩
  · next cs hcs =>
    obtain ⟨⟨c, rest, rfl, hfirst⟩, hchars⟩ := Decimal.Literal.of_unsigned? hread
    refine ⟨?_, by simp [hcs], ?_⟩
    · rw [hcs, ofWord, if_pos (by decide), if_pos (by decide), Numeral.read?,
        Decimal.Literal.read?_ofList hfirst, hread]
      rfl
    · rw [hcs]
      exact List.forall_mem_cons.2 ⟨by decide, fun c hc => endsWord_eq_false (hchars c hc)⟩
  · obtain ⟨⟨c, rest, hcs, hfirst⟩, hchars⟩ := Decimal.Literal.of_unsigned? hread
    refine ⟨htail c rest hcs ?_ ?_, by simp [hcs], fun c hc => endsWord_eq_false (hchars c hc)⟩
    · rintro rfl
      exact absurd hfirst (by decide)
    · rw [startsNumber, hfirst, Bool.true_or, Bool.true_or]

/-- The letters of a word are gathered. -/
lemma tokens_append (read : List Char) {cs : List Char} (h : ∀ c ∈ cs, endsWord c = false)
    (rest : List Char) :
    (tokens read (cs ++ rest) : List (Token K)) = tokens (cs.reverse ++ read) rest := by
  induction cs generalizing read with
  | nil => rfl
  | cons c cs ih =>
    have hc := h c List.mem_cons_self
    simp only [endsWord, Bool.or_eq_false_iff] at hc
    obtain ⟨⟨⟨⟨hblank, hopening⟩, hclosing⟩, hcomma⟩, hnul⟩ := hc
    rw [List.cons_append, tokens, hnul, hblank, hopening, hclosing, hcomma]
    simp only [Bool.false_eq_true, if_false]
    rw [ih (c :: read) fun d hd => h d (List.mem_cons_of_mem c hd), List.reverse_cons,
      List.append_assoc, List.singleton_append]

/-- A character that ends a word yields the word before anything else. -/
lemma tokens_cons (read : List Char) {c : Char} (h : endsWord c = true) (rest : List Char) :
    (tokens read (c :: rest) : List (Token K)) = tokens.flush read ++ tokens [] (c :: rest) := by
  have hempty : (tokens.flush [] : List (Token K)) = [] := rfl
  rw [tokens, tokens, hempty]
  simp only [endsWord, Bool.or_eq_true] at h
  split_ifs with hnul hblank hopening hclosing hcomma
  · rw [List.append_nil]
  · rw [List.nil_append]
  · rw [List.nil_append]
  · rw [List.nil_append]
  · rw [List.nil_append]
  · simp_all

/-- A word stands in front of the character that ends it. -/
lemma tokens_word {cs : List Char} (h : ∀ c ∈ cs, endsWord c = false) (hne : cs ≠ []) {c : Char}
    (hc : endsWord c = true) (rest : List Char) :
    (tokens [] (cs ++ c :: rest) : List (Token K)) = ofWord cs :: tokens [] (c :: rest) := by
  rw [tokens_append [] h, tokens_cons _ hc, List.append_nil, tokens.flush,
    if_neg (by simpa using hne), List.reverse_reverse, List.singleton_append]

/-- A point with exact coordinates is read back of its text. -/
theorem point?_point {p : Point K} (hx : Numeral.IsExact p.x) (hy : Numeral.IsExact p.y) :
    point? (point p) = some p := by
  obtain ⟨hxword, hxnil, hxchars⟩ := ofWord_plain hx
  obtain ⟨hyword, hynil, hychars⟩ := ofWord_plain hy
  have htext : (point p).toList = ['P', 'O', 'I', 'N', 'T'] ++
      '(' :: ((Numeral.plain p.x).toList ++ ' ' :: ((Numeral.plain p.y).toList ++ [')'])) := by
    simp [point, coordinates]
  have htokens : (tokens [] (point p).toList : List (Token K)) =
      [.word "POINT", .opening, .number p.x, .number p.y, .closing] := by
    have hopening : ∀ rest, (tokens [] ('(' :: rest) : List (Token K)) =
        .opening :: tokens [] rest := fun rest => rfl
    have hspace : ∀ rest, (tokens [] (' ' :: rest) : List (Token K)) = tokens [] rest :=
      fun rest => rfl
    have hletters : ∀ c ∈ ['P', 'O', 'I', 'N', 'T'], endsWord c = false := by
      simp [endsWord, isBlank]
    rw [htext, tokens_word hletters (by decide) (by decide), hopening,
      tokens_word hxchars hxnil (by decide), hxword, hspace,
      tokens_word hychars hynil (by decide), hyword]
    rfl
  have hname : "POINT".toUpper = "POINT" := by decide +kernel
  simp only [point?, htokens, hname]
  rfl

end WellKnownText

end RoadMatching
