import Mathlib
import RelaxSchema.Json.Reader
import RelaxSchema.Json.Printer

/-!
# Reading printed JSON

* `Json.take?_render`: the reader gives back a value of natural numbers, strings and arrays that was
  printed without spaces, if it is nested no deeper than is allowed.

The reader works on the text that follows, so each lemma puts an arbitrary rest behind the printed
piece. The end of a number is only seen in what follows it (`Json.Ends`).
-/

namespace RelaxSchema.Json

/-! ### Strings -/

theorem hexValue?_hexDigit : ∀ value < 16, hexValue? (hexDigit value) = some value := by decide

/-- Four digits of base sixteen are enough for a control character. -/
theorem takeCoded?_control {c : Char} (h : c.toNat < 0x20) (rest : List Char) :
    takeCoded? .full ('0' :: '0' :: hexDigit (c.toNat / 16) :: hexDigit (c.toNat % 16) :: rest)
      = some (c, rest) := by
  have hhigh := hexValue?_hexDigit (c.toNat / 16) (by omega)
  have hlow := hexValue?_hexDigit (c.toNat % 16) (by omega)
  have hzero : hexValue? '0' = some 0 := by decide
  have hunit : ((0 * 16 + 0) * 16 + c.toNat / 16) * 16 + c.toNat % 16 = c.toNat := by omega
  have hnotHigh : isHighUnit c.toNat = false := by
    rw [isHighUnit]
    simp only [Bool.and_eq_false_iff, decide_eq_false_iff_not]
    omega
  have hnotLow : isLowUnit c.toNat = false := by
    rw [isLowUnit]
    simp only [Bool.and_eq_false_iff, decide_eq_false_iff_not]
    omega
  have htake : takeUnit? ('0' :: '0' :: hexDigit (c.toNat / 16) :: hexDigit (c.toNat % 16) :: rest)
      = some (c.toNat, rest) := by
    rw [takeUnit?, hzero, hhigh, hlow]
    show some (((0 * 16 + 0) * 16 + c.toNat / 16) * 16 + c.toNat % 16, rest) = _
    rw [hunit]
  rw [takeCoded?, htake, Option.bind_eq_bind, Option.bind_some]
  simp [hnotHigh, hnotLow]

/-- An escaped character is read as the character. -/
theorem takeString?_escape (c : Char) (fuel : Nat) (found rest : List Char) :
    takeString? .full (fuel + 1) found (escape c ++ rest)
      = takeString? .full fuel (c :: found) rest := by
  unfold escape
  split
  · subst_vars; rfl
  split
  · subst_vars; rfl
  split
  · subst_vars; rfl
  split
  · subst_vars; rfl
  split
  · subst_vars; rfl
  split
  · subst_vars; rfl
  split
  · subst_vars; rfl
  split
  · rename_i hcontrol
    show (takeCoded? .full
      ('0' :: '0' :: hexDigit (c.toNat / 16) :: hexDigit (c.toNat % 16) :: rest)
      >>= fun taken => takeString? .full fuel (taken.1 :: found) taken.2) = _
    rw [takeCoded?_control hcontrol]
    rfl
  · rename_i hquote hbackslash _ _ _ _ _ hcontrol
    simp only [List.singleton_append, takeString?, hquote, hbackslash, hcontrol, ↓reduceIte]

theorem takeString?_flatMap_escape (chars : List Char) {fuel : Nat} (hfuel : chars.length < fuel)
    (found rest : List Char) :
    takeString? .full fuel found (chars.flatMap escape ++ '"' :: rest)
      = some (String.ofList (found.reverse ++ chars), rest) := by
  induction chars generalizing fuel found with
  | nil =>
    obtain ⟨less, rfl⟩ : ∃ less, fuel = less + 1 := ⟨fuel - 1, by simp at hfuel; omega⟩
    rw [List.append_nil]
    rfl
  | cons c chars ih =>
    rw [List.length_cons] at hfuel
    obtain ⟨less, rfl⟩ : ∃ less, fuel = less + 1 := ⟨fuel - 1, by omega⟩
    rw [List.flatMap_cons, List.append_assoc, takeString?_escape, ih (by omega),
      List.reverse_cons, List.append_assoc, List.singleton_append]

theorem length_le_length_flatMap_escape (chars : List Char) :
    chars.length ≤ (chars.flatMap escape).length := by
  induction chars with
  | nil => exact Nat.le_refl _
  | cons c chars ih =>
    have hpos : 0 < (escape c).length := by
      unfold escape
      split_ifs <;> exact Nat.succ_pos _
    rw [List.flatMap_cons, List.length_append, List.length_cons]
    omega

theorem toList_quote (text : String) :
    (quote text).toList = '"' :: text.toList.flatMap escape ++ ['"'] := by
  rw [quote, String.toList_ofList]

/-- **A quoted string is read as the string.** -/
theorem takeQuoted?_quote (text : String) {fuel : Nat} (hfuel : text.toList.length < fuel)
    (rest : List Char) :
    takeQuoted? .full fuel ((quote text).toList ++ rest) = some (text, rest) := by
  rw [toList_quote, List.append_assoc, List.cons_append, List.singleton_append]
  show takeString? .full fuel [] (text.toList.flatMap escape ++ '"' :: rest) = _
  rw [takeString?_flatMap_escape _ hfuel, List.reverse_nil, List.nil_append, String.ofList_toList]

/-! ### Natural numbers -/

/-- What may follow a number: nothing that could belong to it. -/
def Ends (rest : List Char) : Prop :=
  ∀ c ∈ rest.head?, c.isDigit = false ∧ c ≠ '.' ∧ c ≠ 'e' ∧ c ≠ 'E'

theorem span_isDigit {digits rest : List Char} (hdigits : ∀ c ∈ digits, c.isDigit = true)
    (hends : Ends rest) : (digits ++ rest).span Char.isDigit = (digits, rest) := by
  rw [List.span_eq_takeWhile_dropWhile, List.takeWhile_append_of_pos hdigits,
    List.dropWhile_append_of_pos hdigits]
  cases rest with
  | nil => rw [List.takeWhile_nil, List.dropWhile_nil, List.append_nil]
  | cons c rest =>
    obtain ⟨hc, -⟩ := hends c rfl
    rw [List.takeWhile_cons_of_neg (by simp [hc]), List.dropWhile_cons_of_neg (by simp [hc]),
      List.append_nil]

/-- The digits of a positive number do not begin with a zero. -/
theorem head?_toDigits {value : Nat} (h : 0 < value) :
    (Nat.toDigits 10 value).head? ≠ some '0' := by
  induction value using Nat.strongRecOn with
  | ind value ih =>
    rw [Nat.toDigits_eq_if (by decide)]
    split
    · rename_i hlt
      have hall : ∀ digit < 10, 0 < digit → digit.digitChar ≠ '0' := by decide
      rw [List.head?_cons]
      exact fun heq => hall value hlt h (Option.some.inj heq)
    · rename_i hge
      have hless := ih (value / 10) (Nat.div_lt_self h (by decide)) (by omega)
      rw [List.head?_append]
      cases hdigits : Nat.toDigits 10 (value / 10) with
      | nil => exact absurd hdigits Nat.toDigits_ne_nil
      | cons first others =>
        rw [hdigits] at hless
        exact hless

theorem takeWhole?_toDigits (value : Nat) {rest : List Char} (hends : Ends rest) :
    takeWhole? (Nat.toDigits 10 value ++ rest) = some (Nat.toDigits 10 value, rest) := by
  have hdigits : ∀ c ∈ Nat.toDigits 10 value, c.isDigit = true :=
    fun c hc => Nat.isDigit_of_mem_toDigits (by decide) (Nat.le_refl _) hc
  have htake : takeDigits? (Nat.toDigits 10 value ++ rest) =
      some (Nat.toDigits 10 value, rest) := by
    rw [takeDigits?, span_isDigit hdigits hends]
    show (if (Nat.toDigits 10 value).isEmpty then none else _) = _
    rw [List.isEmpty_eq_false_iff.mpr Nat.toDigits_ne_nil]
    rfl
  -- A zero in front of other digits is refused, but there is none.
  have hzero : ∀ second others, Nat.toDigits 10 value ≠ '0' :: second :: others := by
    intro second others heq
    rcases Nat.eq_zero_or_pos value with rfl | hpos
    · rw [Nat.toDigits_zero] at heq
      simp at heq
    · exact head?_toDigits hpos (by rw [heq, List.head?_cons])
  unfold takeWhole?
  rw [htake, Option.bind_eq_bind, Option.bind_some]
  dsimp only
  split
  · rename_i heq
    exact absurd heq (hzero _ _)
  · rfl

theorem le_ofDigitChars (digits : List Char) (sum : Nat) :
    sum ≤ Nat.ofDigitChars 10 digits sum := by
  induction digits generalizing sum with
  | nil => exact Nat.le_of_eq Nat.ofDigitChars_nil.symm
  | cons c digits ih =>
    rw [Nat.ofDigitChars_cons]
    have hrest := ih (10 * sum + (c.toNat - '0'.toNat))
    omega

-- Kept closed, since comparing with the bound by unfolding would count up to it.
attribute [local irreducible] pushDigit? in
theorem pushDigits_cons (sum : Nat) (c : Char) (digits : List Char) :
    pushDigits sum (c :: digits) = match pushDigit? sum c with
      | some next => pushDigits next digits
      | none => (sum, c :: digits) := rfl

theorem pushDigit?_eq {sum : Nat} {c : Char}
    (h : 10 * sum + (c.toNat - '0'.toNat) < wordEnd) :
    pushDigit? sum c = some (10 * sum + (c.toNat - '0'.toNat)) := by
  unfold pushDigit?
  rw [Nat.mul_comm sum 10]
  show (if 10 * sum + (c.toNat - '0'.toNat) < wordEnd then _ else _) = _
  rw [if_pos h]

/-- Digits are taken into a significand as long as it fits. -/
theorem pushDigits_eq {digits : List Char} {sum : Nat}
    (h : Nat.ofDigitChars 10 digits sum < wordEnd) :
    pushDigits sum digits = (Nat.ofDigitChars 10 digits sum, []) := by
  induction digits generalizing sum with
  | nil =>
    rw [Nat.ofDigitChars_nil]
    rfl
  | cons c digits ih =>
    rw [Nat.ofDigitChars_cons] at h ⊢
    have hle := le_ofDigitChars digits (10 * sum + (c.toNat - '0'.toNat))
    rw [pushDigits_cons, pushDigit?_eq (Nat.lt_of_le_of_lt hle h)]
    exact ih h

/-- **A printed natural number is read exactly** if it is a word of 64 bits. -/
theorem takeNumberValue?_toDigits {value : Nat} (hvalue : value < wordEnd) {rest : List Char}
    (hends : Ends rest) :
    takeNumberValue? .full (Nat.toDigits 10 value ++ rest) = some (.nat value, rest) := by
  -- What may follow a number continues none of its parts.
  have hfraction : takeFraction? rest = some (none, rest) := by
    cases rest with
    | nil => rfl
    | cons c rest =>
      obtain ⟨-, hpoint, -⟩ := hends c rfl
      simp [takeFraction?, hpoint]
  have hexponent : takeExponent? rest = some (none, rest) := by
    cases rest with
    | nil => rfl
    | cons c rest =>
      obtain ⟨-, -, hlower, hupper⟩ := hends c rfl
      simp [takeExponent?, hlower, hupper]
  have hminus : ∀ tail, Nat.toDigits 10 value ++ rest ≠ '-' :: tail := by
    intro tail heq
    cases hdigits : Nat.toDigits 10 value with
    | nil => exact absurd hdigits Nat.toDigits_ne_nil
    | cons first others =>
      rw [hdigits, List.cons_append] at heq
      obtain ⟨rfl, -⟩ := List.cons.inj heq
      have hmem : '-' ∈ Nat.toDigits 10 value := hdigits ▸ List.mem_cons_self
      have hdigit := Nat.isDigit_of_mem_toDigits (by decide) (Nat.le_refl 10) hmem
      exact absurd hdigit (by decide)
  have hnumber : takeNumber? (Nat.toDigits 10 value ++ rest)
      = some (⟨false, Nat.toDigits 10 value, none, none⟩, rest) := by
    have hwhole := takeWhole?_toDigits value hends
    generalize hinput : Nat.toDigits 10 value ++ rest = input at hminus hwhole ⊢
    simp [takeNumber?, hwhole, hfraction, hexponent]
  have hpush : pushDigits 0 (Nat.toDigits 10 value) = (value, []) := by
    rw [pushDigits_eq (by rwa [Nat.ofDigitChars_ten_toDigits]), Nat.ofDigitChars_ten_toDigits]
  rw [takeNumberValue?, hnumber, Option.bind_eq_bind, Option.bind_some]
  simp [NumberParts.value?, hpush, integerValue]

/-! ### Values -/

mutual

/-- How deep arrays and objects are nested in a value. -/
def nesting : Json → Nat
  | array items => nestingAll items + 1
  | object members => nestingMembers members + 1
  | _ => 0

/-- How deep arrays and objects are nested in several values. -/
def nestingAll : List Json → Nat
  | [] => 0
  | item :: rest => max (nesting item) (nestingAll rest)

/-- How deep arrays and objects are nested in a named value. -/
def nestingMember : String × Json → Nat
  | (_, value) => nesting value

/-- How deep arrays and objects are nested in several named values. -/
def nestingMembers : List (String × Json) → Nat
  | [] => 0
  | member :: rest => max (nestingMember member) (nestingMembers rest)

end

mutual

/-- A value of natural numbers of 64 bits, strings and arrays. -/
def IsPlain : Json → Prop
  | number (.natural value) => value < wordEnd
  | string _ => True
  | array items => AllPlain items
  | _ => False

/-- Values of natural numbers of 64 bits, strings and arrays. -/
def AllPlain : List Json → Prop
  | [] => True
  | item :: rest => IsPlain item ∧ AllPlain rest

end

theorem allPlain_iff {items : List Json} : AllPlain items ↔ ∀ item ∈ items, item.IsPlain := by
  induction items with
  | nil => simp [AllPlain]
  | cons item rest ih => rw [AllPlain, ih, List.forall_mem_cons]

theorem nesting_le_nestingAll {items : List Json} {item : Json} (h : item ∈ items) :
    item.nesting ≤ nestingAll items := by
  induction items with
  | nil => simp at h
  | cons first rest ih =>
    rw [nestingAll]
    rcases List.mem_cons.mp h with rfl | h
    · exact Nat.le_max_left _ _
    · exact Nat.le_trans (ih h) (Nat.le_max_right _ _)

/-- Text that begins a value: no white space and no closing bracket. -/
def Begins (text : List Char) : Prop :=
  ∃ c rest, text = c :: rest ∧ c ≠ ']' ∧ ∀ rest, trimFront (c :: rest) = c :: rest

theorem toList_text_natural (value : Nat) :
    (JsonNumber.natural value).text.toList = Nat.toDigits 10 value := by
  show (toString value).toList = _
  rw [Nat.toString_eq_ofList_toDigits, String.toList_ofList]

theorem toList_render_array (items : List Json) :
    (render (.array items)).toList = '[' :: (renderItems items).toList ++ [']'] := by
  rw [render, String.toList_append, String.toList_append]
  rfl

theorem toList_renderItems_cons (first second : Json) (rest : List Json) :
    (renderItems (first :: second :: rest)).toList
      = (render first).toList ++ ',' :: (renderItems (second :: rest)).toList := by
  rw [renderItems, String.toList_append, String.toList_append, List.append_assoc]
  · rfl
  · simp

theorem begins_render {value : Json} (h : value.IsPlain) : Begins (render value).toList := by
  match value with
  | number (.natural value) =>
    rw [render, toList_text_natural]
    cases hdigits : Nat.toDigits 10 value with
    | nil => exact absurd hdigits Nat.toDigits_ne_nil
    | cons c rest =>
      have hmem : c ∈ Nat.toDigits 10 value := hdigits ▸ List.mem_cons_self
      have hdigit := Nat.isDigit_of_mem_toDigits (by decide) (Nat.le_refl 10) hmem
      refine ⟨c, rest, rfl, ?_, fun rest => ?_⟩
      · rintro rfl
        exact absurd hdigit (by decide)
      · refine List.dropWhile_cons_of_neg ?_
        simp only [Bool.or_eq_true, decide_eq_true_eq]
        rintro (((rfl | rfl) | rfl) | rfl) <;> exact absurd hdigit (by decide)
  | string text =>
    rw [render, toList_quote]
    exact ⟨'"', _, rfl, by decide, fun _ => rfl⟩
  | array items =>
    rw [toList_render_array]
    exact ⟨'[', _, rfl, by decide, fun _ => rfl⟩

theorem begins_renderItems {first : Json} (h : first.IsPlain) (others : List Json) :
    Begins (renderItems (first :: others)).toList := by
  obtain ⟨c, tail, htext, hc⟩ := begins_render h
  cases others with
  | nil => exact ⟨c, tail, by rw [renderItems, htext], hc⟩
  | cons second others => exact ⟨c, _, by rw [toList_renderItems_cons, htext]; rfl, hc⟩

theorem length_le_length_renderItems {items : List Json} (h : AllPlain items) :
    items.length ≤ (renderItems items).toList.length := by
  induction items with
  | nil => exact Nat.zero_le _
  | cons first rest ih =>
    obtain ⟨hfirst, hrest⟩ := h
    obtain ⟨c, tail, htext, -⟩ := begins_render hfirst
    cases rest with
    | nil => simp [renderItems, htext]
    | cons second rest =>
      have hlength := ih hrest
      rw [toList_renderItems_cons, htext]
      simp only [List.length_append, List.length_cons] at hlength ⊢
      omega

theorem length_render_le {items : List Json} {item : Json} (h : item ∈ items) :
    (render item).toList.length ≤ (renderItems items).toList.length := by
  induction items with
  | nil => simp at h
  | cons first rest ih =>
    cases rest with
    | nil =>
      obtain rfl := List.mem_singleton.mp h
      exact Nat.le_of_eq (by rw [renderItems])
    | cons second rest =>
      rw [toList_renderItems_cons, List.length_append, List.length_cons]
      rcases List.mem_cons.mp h with rfl | h
      · omega
      · have hlater := ih h
        omega

/-! ### Reading values -/

theorem ends_comma (rest : List Char) : Ends (',' :: rest) := by
  intro c hc
  obtain rfl := Option.some.inj hc
  decide

theorem ends_closing (rest : List Char) : Ends (']' :: rest) := by
  intro c hc
  obtain rfl := Option.some.inj hc
  decide

/-- Without a bracket in front there is no array and no object. -/
theorem take?_eq_takeScalar? (scrutiny : Scrutiny) (fuel depth : Nat) {c : Char} {rest : List Char}
    (htrim : trimFront (c :: rest) = c :: rest) (harray : c ≠ '[') (hobject : c ≠ '\x7b') :
    take? scrutiny fuel depth (c :: rest) = takeScalar? scrutiny fuel (c :: rest) := by
  cases depth with
  | zero => simp [take?, htrim, harray, hobject]
  | succ depth => simp [take?, htrim, harray, hobject]

theorem takeScalar?_of_isDigit (scrutiny : Scrutiny) (fuel : Nat) {c : Char} {rest : List Char}
    (hdigit : c.isDigit = true) :
    takeScalar? scrutiny fuel (c :: rest) = takeNumberValue? scrutiny (c :: rest) := by
  have hne : ∀ other, other.isDigit = false → c ≠ other := by
    rintro other hother rfl
    rw [hdigit] at hother
    exact absurd hother (by decide)
  have hn := hne 'n' (by decide)
  have ht := hne 't' (by decide)
  have hf := hne 'f' (by decide)
  have hquote := hne '"' (by decide)
  simp [takeScalar?, hn, ht, hf, hquote]

theorem take?_natural {value : Nat} (hvalue : value < wordEnd) (fuel depth : Nat) {rest : List Char}
    (hends : Ends rest) :
    take? .full fuel depth (Nat.toDigits 10 value ++ rest) = some (.nat value, rest) := by
  have hnumber := takeNumberValue?_toDigits hvalue hends
  have hbegins : Begins (render (.nat value)).toList := begins_render hvalue
  obtain ⟨c, tail, htext, -, htrim⟩ := hbegins
  rw [render, toList_text_natural] at htext
  have hmem : c ∈ Nat.toDigits 10 value := htext ▸ List.mem_cons_self
  have hdigit := Nat.isDigit_of_mem_toDigits (by decide) (Nat.le_refl 10) hmem
  rw [htext, List.cons_append] at hnumber ⊢
  rw [take?_eq_takeScalar? .full fuel depth (htrim _), takeScalar?_of_isDigit _ _ hdigit, hnumber]
  · rintro rfl
    exact absurd hdigit (by decide)
  · rintro rfl
    exact absurd hdigit (by decide)

theorem take?_string (text : String) {fuel : Nat} (hfuel : text.toList.length < fuel) (depth : Nat)
    (rest : List Char) :
    take? .full fuel depth ((quote text).toList ++ rest) = some (.string text, rest) := by
  have hquoted := takeQuoted?_quote text hfuel rest
  rw [toList_quote, List.append_assoc, List.cons_append] at hquoted ⊢
  rw [take?_eq_takeScalar? .full fuel depth rfl (by decide) (by decide), takeScalar?, hquoted]
  rfl

/-- Items are taken one after the other if each can be taken. -/
theorem takeItems?_renderItems (take? : List Char → Option (Json × List Char)) {items : List Json}
    (htake : ∀ item ∈ items, ∀ rest, Ends rest →
      take? ((render item).toList ++ rest) = some (item, rest))
    (hne : items ≠ []) {fuel : Nat} (hfuel : items.length ≤ fuel) (found : List Json)
    (rest : List Char) :
    takeItems? take? fuel found ((renderItems items).toList ++ ']' :: rest)
      = some (.array (found.reverse ++ items), rest) := by
  induction items generalizing fuel found with
  | nil => exact absurd rfl hne
  | cons first others ih =>
    rw [List.length_cons] at hfuel
    obtain ⟨less, rfl⟩ : ∃ less, fuel = less + 1 := ⟨fuel - 1, by omega⟩
    have hfirst := htake first List.mem_cons_self
    cases others with
    | nil =>
      rw [renderItems, takeItems?, hfirst _ (ends_closing rest)]
      show some (Json.array (first :: found).reverse, rest) = _
      rw [List.reverse_cons]
    | cons second others =>
      rw [toList_renderItems_cons, List.append_assoc, List.cons_append, takeItems?,
        hfirst _ (ends_comma _)]
      show takeItems? take? less (first :: found) _ = _
      rw [ih (fun item hitem => htake item (List.mem_cons_of_mem _ hitem)) (by simp) (by omega),
        List.reverse_cons, List.append_assoc, List.singleton_append]

mutual

/-- **Reading undoes printing.** The induction is on the value; the fuel is the same for all its
parts, since each is shorter than the whole. -/
theorem take?_render (value : Json) (hplain : value.IsPlain) {fuel depth : Nat} {rest : List Char}
    (hfuel : (render value).toList.length < fuel) (hdepth : value.nesting ≤ depth)
    (hends : Ends rest) :
    take? .full fuel depth ((render value).toList ++ rest) = some (value, rest) := by
  cases value with
  | null | bool _ | object _ => exact False.elim hplain
  | number value =>
    cases value with
    | negative _ | double _ => exact False.elim hplain
    | natural value =>
      rw [render, toList_text_natural]
      exact take?_natural hplain fuel depth hends
  | string text =>
    rw [render] at hfuel ⊢
    refine take?_string text ?_ depth rest
    have hlength := length_le_length_flatMap_escape text.toList
    rw [toList_quote, List.length_append, List.length_cons] at hfuel
    omega
  | array items =>
    rw [nesting] at hdepth
    obtain ⟨less, rfl⟩ : ∃ less, depth = less + 1 := ⟨depth - 1, by omega⟩
    cases items with
    | nil => rfl
    | cons first others =>
      rw [toList_render_array, List.length_append, List.length_cons] at hfuel
      have hlength := length_le_length_renderItems hplain
      -- Brackets leave enough fuel for the items, and each item has one level less.
      have hfirst : (first :: others).length ≤ fuel := by omega
      have htake : ∀ item ∈ first :: others, ∀ rest, Ends rest →
          take? .full fuel less ((render item).toList ++ rest) = some (item, rest) := by
        intro item hitem rest hends
        have hshort := length_render_le hitem
        have hless := nesting_le_nestingAll hitem
        exact take?_renderAll (first :: others) hplain item hitem (by omega) (by omega) hends
      have hitems := takeItems?_renderItems _ htake (by simp) hfirst [] rest
      obtain ⟨c, tail, htext, hclosing, htrim⟩ := begins_renderItems hplain.1 others
      have hopening : ∀ text, trimFront ('[' :: text) = '[' :: text := fun _ => rfl
      rw [toList_render_array, htext]
      rw [htext] at hitems
      simpa [take?, hopening, htrim, hclosing] using hitems
termination_by structural value

/-- Reading undoes the printing of each of several values. -/
theorem take?_renderAll (items : List Json) (hplain : AllPlain items) (item : Json)
    (hitem : item ∈ items) {fuel depth : Nat} {rest : List Char}
    (hfuel : (render item).toList.length < fuel) (hdepth : item.nesting ≤ depth)
    (hends : Ends rest) :
    take? .full fuel depth ((render item).toList ++ rest) = some (item, rest) := by
  cases items with
  | nil => simp at hitem
  | cons first others =>
    rcases List.mem_cons.mp hitem with heq | hothers
    · rw [heq] at hfuel hdepth ⊢
      exact take?_render first hplain.1 hfuel hdepth hends
    · exact take?_renderAll others hplain.2 item hothers hfuel hdepth hends
termination_by structural items

end

end RelaxSchema.Json
