import RelaxSchema.Proofs.Content.Rows

/-!
# Text that is repeated

Each text and each CDATA section is a token of its own, so content can tell several of them in a row
from a single one. Some content does not (`IsBlindTo`).

* `Expression.isBlindTo_language`: an expression does not tell them apart if no block of its content
  does;
* `Expression.isBlindTo_language_iff`: it does if one block does, unless blocks share a token;
* `Model.isBlindTo_of_ignoresRepeatedText`: a block does not in which each text stands in a
  repetition, with nothing but choices and options in between.

A block that takes the token once takes it again and stays as it is (`Takes.again`). In words of
repetitions any number of texts may take the place of one (`Exchanges`), which passes from the
blocks of a sequence or a choice to the whole.
-/

namespace RelaxSchema

open List Computability

/-! ### Languages -/

/-- It makes no difference to a language whether a token in a word stands there once or twice. -/
def IsBlindTo (token : String) (language : Language String) : Prop :=
  ∀ before after, before ++ token :: token :: after ∈ language ↔ before ++ token :: after ∈ language

/-- A word of one language becomes one of another if some tokens take the place of a certain one. -/
def Exchanges (token : String) (others : List String) (source target : Language String) : Prop :=
  ∀ before after, before ++ token :: after ∈ source → before ++ others ++ after ∈ target

section Languages

variable {token : String} {others : List String}
    {language language' source source' target : Language String}

theorem IsBlindTo.leftQuotient (h : IsBlindTo token language) (first : List String) :
    IsBlindTo token (language.leftQuotient first) := by
  intro before after
  rw [Language.mem_leftQuotient, Language.mem_leftQuotient, ← append_assoc, ← append_assoc]
  exact h (first ++ before) after

/-- Nor does it make a difference how often the token stands there. -/
theorem IsBlindTo.mem_replicate_iff (h : IsBlindTo token language) (before after : List String)
    (more : Nat) :
    before ++ replicate (more + 1) token ++ after ∈ language ↔
      before ++ token :: after ∈ language := by
  induction more with
  | zero => rw [append_assoc, replicate_one, singleton_append]
  | succ more ih =>
    rw [append_assoc] at ih ⊢
    rw [← ih]
    exact h before (replicate more token ++ after)

/-- A token that may be left out and may be repeated is not counted. -/
theorem isBlindTo_of_exchanges
    (h : ∀ count, Exchanges token (replicate count token) language language) :
    IsBlindTo token language := by
  intro before after
  constructor
  · intro htwice
    have honce := h 0 before (token :: after) htwice
    rwa [replicate_zero, append_nil] at honce
  · intro honce
    have htwice := h 2 before after honce
    rwa [append_assoc] at htwice

/-- A token of two lists side by side is in one of them. -/
theorem append_eq_append_cons {first second before after : List String}
    (h : first ++ second = before ++ token :: after) :
    (∃ rest, first = before ++ token :: rest ∧ after = rest ++ second) ∨
      ∃ rest, before = first ++ rest ∧ second = rest ++ token :: after := by
  rcases append_eq_append_iff.mp h with ⟨rest, hbefore, hsecond⟩ | ⟨rest, hfirst, hafter⟩
  · exact Or.inr ⟨rest, hbefore, hsecond⟩
  · cases rest with
    | nil => exact Or.inr ⟨[], by rw [hfirst, append_nil, append_nil], hafter.symm⟩
    | cons found rest =>
      obtain ⟨rfl, rfl⟩ := cons.inj hafter
      exact Or.inl ⟨rest, hfirst, rfl⟩

theorem Exchanges.mono (h : Exchanges token others source target) {target' : Language String}
    (hle : target ≤ target') : Exchanges token others source target' :=
  fun before after hword => hle (h before after hword)

theorem exchanges_one : Exchanges token others 1 target := by
  intro before after hword
  exact absurd hword (append_ne_nil_of_right_ne_nil before (cons_ne_nil token after))

theorem Exchanges.add (h : Exchanges token others source target)
    (h' : Exchanges token others source' target) :
    Exchanges token others (source + source') target := by
  rintro before after (hword | hword)
  · exact h before after hword
  · exact h' before after hword

theorem Exchanges.mul (h : Exchanges token others language language)
    (h' : Exchanges token others language' language') :
    Exchanges token others (language * language') (language * language') := by
  intro before after hword
  obtain ⟨first, hfirst, second, hsecond, heq⟩ := Language.mem_mul.mp hword
  rcases append_eq_append_cons heq with ⟨rest, rfl, rfl⟩ | ⟨rest, rfl, rfl⟩
  · rw [← append_assoc]
    exact Language.append_mem_mul (h before rest hfirst) hsecond
  · rw [append_assoc, append_assoc, ← append_assoc rest]
    exact Language.append_mem_mul hfirst (h' rest after hsecond)

/-- In a repetition it is enough that a word becomes one of the repetition. -/
theorem Exchanges.kstar (h : Exchanges token others language language∗) :
    Exchanges token others language∗ language∗ := by
  have hjoin : ∀ {first second : List String}, first ∈ language∗ → second ∈ language∗ →
      first ++ second ∈ language∗ := by
    intro first second hfirst hsecond
    rw [← kstar_mul_kstar]
    exact Language.append_mem_mul hfirst hsecond
  intro before after hword
  obtain ⟨parts, heq, hparts⟩ := Language.mem_kstar.mp hword
  clear hword
  induction parts generalizing before with
  | nil => exact absurd heq (append_ne_nil_of_right_ne_nil before (cons_ne_nil token after))
  | cons part rest ih =>
    obtain ⟨hpart, hrest⟩ := forall_mem_cons.mp hparts
    rw [flatten_cons] at heq
    rcases append_eq_append_cons heq.symm with ⟨later, rfl, rfl⟩ | ⟨later, rfl, hlater⟩
    · rw [← append_assoc]
      exact hjoin (h before later hpart) (Language.join_mem_kstar hrest)
    · rw [append_assoc, append_assoc, ← append_assoc later]
      exact hjoin ((le_kstar : language ≤ language∗) hpart) (ih later hlater.symm hrest)

theorem exchanges_prod {languages : List (Language String)}
    (h : ∀ language ∈ languages, Exchanges token others language language) :
    Exchanges token others languages.prod languages.prod := by
  induction languages with
  | nil => exact exchanges_one
  | cons language rest ih =>
    obtain ⟨hfirst, hrest⟩ := forall_mem_cons.mp h
    rw [prod_cons]
    exact hfirst.mul (ih hrest)

theorem exchanges_sum {languages : List (Language String)}
    (h : ∀ language ∈ languages, Exchanges token others language target) :
    Exchanges token others languages.sum target := by
  intro before after hword
  obtain ⟨language, hlanguage, hmem⟩ := mem_sum_iff.mp hword
  exact h language hlanguage before after hmem

end Languages

/-! ### Rows of languages -/

section Rows

variable {token : String} {languages next : List (Language String)}

/-- A token that is not counted goes to the same language again and leaves it as it is. -/
theorem Takes.again (h : Takes token languages next)
    (hblind : ∀ language ∈ languages, IsBlindTo token language) : Takes token next next := by
  induction h with
  | @first language others hword =>
    obtain ⟨hfirst, -⟩ := forall_mem_cons.mp hblind
    have hsame : (language.leftQuotient [token]).leftQuotient [token] =
        language.leftQuotient [token] :=
      Language.ext fun word => hfirst [] word
    have htakes : Takes token (language.leftQuotient [token] :: others)
        ((language.leftQuotient [token]).leftQuotient [token] :: others) := by
      obtain ⟨word, hword⟩ := hword
      exact .first ⟨word, (hfirst [] word).mpr hword⟩
    rwa [hsame] at htakes
  | later hnone _ ih =>
    obtain ⟨-, hothers⟩ := forall_mem_cons.mp hblind
    exact .later hnone (ih hothers)

/-- **Languages that do not count a token do not count it together.** -/
theorem isBlindTo_reads (hblind : ∀ language ∈ languages, IsBlindTo token language) :
    IsBlindTo token {word | Reads languages word} := by
  intro before after
  show Reads _ _ ↔ Reads _ _
  induction before generalizing languages with
  | nil =>
    constructor
    · rintro ⟨next, hnext, last, hlast, hrest⟩
      obtain rfl := hlast.unique (hnext.again hblind)
      exact ⟨_, hnext, hrest⟩
    · rintro ⟨next, hnext, hrest⟩
      exact ⟨next, hnext, next, hnext.again hblind, hrest⟩
  | cons first before ih =>
    refine exists_congr fun next => and_congr_right fun hnext => ih ?_
    exact hnext.forall (fun _ hlanguage _ => hlanguage.leftQuotient [first]) hblind

end Rows

/-! ### Merges -/

/-- Tokens may be left out of a merge together with those of the words. -/
theorem Merge.filter {words : List (List String)} {merged : List String} (h : Merge words merged)
    (keep : String → Bool) : Merge (words.map (List.filter keep)) (merged.filter keep) := by
  induction h with
  | nil hnil =>
    refine .nil (forall_mem_map.mpr fun word hword => ?_)
    rw [hnil word hword, filter_nil]
  | @cons before after word merged token _ ih =>
    rw [map_append, map_cons] at ih ⊢
    cases hkeep : keep token with
    | true =>
      rw [filter_cons_of_pos hkeep, filter_cons_of_pos hkeep]
      exact .cons token ih
    | false =>
      rw [filter_cons_of_neg (Bool.eq_false_iff.mp hkeep),
        filter_cons_of_neg (Bool.eq_false_iff.mp hkeep)]
      exact ih

/-- A word is merged with nothing. -/
theorem Merge.eq_of_forall_eq_nil {word merged : List String} {others : List (List String)}
    (h : Merge (word :: others) merged) (hnil : ∀ other ∈ others, other = []) : merged = word := by
  generalize hwords : word :: others = words at h
  induction h generalizing word with
  | nil hall => exact (hall word (hwords ▸ mem_cons_self)).symm
  | @cons before after rest merged token _ ih =>
    cases before with
    | nil =>
      obtain ⟨rfl, rfl⟩ := cons.inj hwords
      rw [ih rfl]
    | cons first before =>
      obtain ⟨-, rfl⟩ := cons.inj hwords
      exact absurd (hnil (token :: rest) mem_append_cons_self) (cons_ne_nil _ _)

/-- Behind words of the other languages, a merge ends in a word of a language that has tokens of its
own. -/
theorem exists_append_mem_mergeLanguage_iff {language : Language String}
    {others : List (Language String)} (halive : ∀ other ∈ others, ∃ word, word ∈ other)
    (hapart : ∀ token, (∃ word ∈ language, token ∈ word) →
      ∀ other ∈ others, ∀ word ∈ other, token ∉ word) :
    ∃ rest, ∀ word, (∀ token ∈ word, ∃ known ∈ language, token ∈ known) →
      (word ++ rest ∈ mergeLanguage (language :: others) ↔ word ∈ language) := by
  classical
  obtain ⟨words, hwords⟩ := exists_forall₂ halive
  refine ⟨words.flatten, fun word hword => ⟨?_, fun hmem => ?_⟩⟩
  · rintro ⟨parts, hparts, hmerge⟩
    obtain ⟨part, rest, hpart, hrest, rfl⟩ := forall₂_cons_right_iff.mp hparts
    -- If only the tokens of `language` are kept, `word` is left of the merge and `part` of the
    -- words.
    let keep (token : String) : Bool := decide (∃ known ∈ language, token ∈ known)
    have hkept : ∀ {tokens : List String}, (∀ token ∈ tokens, ∃ known ∈ language, token ∈ known) →
        tokens.filter keep = tokens :=
      fun h => filter_eq_self.mpr fun token htoken => decide_eq_true (h token htoken)
    have hdropped : ∀ {tokens : List String} {other : Language String}, other ∈ others →
        tokens ∈ other → tokens.filter keep = [] := by
      intro tokens other hother htokens
      refine filter_eq_nil_iff.mpr fun token htoken hkeep => ?_
      exact hapart token (of_decide_eq_true hkeep) other hother tokens htokens htoken
    have hmerge := hmerge.filter keep
    have hflatten : words.flatten.filter keep = [] := by
      rw [filter_flatten]
      refine flatten_eq_nil_iff.mpr (forall_mem_map.mpr fun tokens htokens => ?_)
      obtain ⟨other, hother, hmem⟩ := exists_right_of_forall₂ hwords htokens
      exact hdropped hother hmem
    rw [map_cons, filter_append, hflatten, append_nil, hkept hword,
      hkept fun token htoken => ⟨part, hpart, htoken⟩] at hmerge
    have hsame := hmerge.eq_of_forall_eq_nil <| forall_mem_map.mpr fun tokens htokens => by
      obtain ⟨other, hother, hmem⟩ := exists_right_of_forall₂ hrest htokens
      exact hdropped hother hmem
    rwa [hsame]
  · exact ⟨word :: words, .cons hmem hwords, .flatten (word :: words)⟩

/-- Where merges do not count a token, a language with tokens of its own does not. -/
theorem isBlindTo_of_mergeLanguage {token : String} {language : Language String}
    {others : List (Language String)} (halive : ∀ other ∈ others, ∃ word, word ∈ other)
    (hapart : ∀ token, (∃ word ∈ language, token ∈ word) →
      ∀ other ∈ others, ∀ word ∈ other, token ∉ word)
    (h : IsBlindTo token (mergeLanguage (language :: others))) : IsBlindTo token language := by
  obtain ⟨rest, hrest⟩ := exists_append_mem_mergeLanguage_iff halive hapart
  -- A list that has only tokens of a word is a word if it is one in front of `rest`.
  have hmoves : ∀ {first second : List String}, second ⊆ first →
      (first ++ rest ∈ mergeLanguage (language :: others) →
        second ++ rest ∈ mergeLanguage (language :: others)) → first ∈ language →
          second ∈ language := by
    intro first second hsubset hmerge hfirst
    have hknown : ∀ other ∈ first, ∃ known ∈ language, other ∈ known :=
      fun other hother => ⟨first, hfirst, hother⟩
    have hsecond := hmerge ((hrest first hknown).mpr hfirst)
    exact (hrest second fun other hother => hknown other (hsubset hother)).mp hsecond
  intro before after
  have hblind := h before (after ++ rest)
  simp only [← cons_append, ← append_assoc] at hblind
  exact ⟨hmoves (by simp) hblind.mp, hmoves (by simp) hblind.mpr⟩

/-! ### Expressions -/

namespace Expression

/-- The lists of tokens that an expression accepts. -/
def language (expression : Expression) : Language String :=
  {tokens | expression.accepts tokens = true}

variable {expression : Expression} {name : String} {model : Model} {limits : Limits}
    {token : String}

/-- **Blocks that do not count a token** make an expression that does not count it. -/
theorem isBlindTo_language (h : compile name model limits = .ok expression)
    (hblind : ∀ block ∈ model.parts, IsBlindTo token block.language) :
    IsBlindTo token expression.language := by
  have hreads := isBlindTo_reads (forall_mem_map.mpr hblind)
  intro before after
  show expression.accepts _ = true ↔ expression.accepts _ = true
  rw [accepts_iff_reads h, accepts_iff_reads h]
  exact hreads before after

/-- Blocks without a common token are read as merges of their words. -/
theorem language_eq_mergeLanguage (h : compile name model limits = .ok expression)
    (hdisjoint : model.parts.Pairwise fun first second =>
      ∀ token ∈ first.occurrences, token ∉ second.occurrences) :
    expression.language = mergeLanguage (model.parts.map Model.language) := by
  have hrow := compile_row h
  have hinitial := Interleave.remaining_initial hrow
  refine Language.ext fun tokens => ?_
  show expression.accepts tokens = true ↔ _
  rw [accepts, acceptsFrom_iff_mem_languageFrom tokens rfl, ← Engine.initial_row, ← hinitial]
  constructor
  · rintro ⟨last, hrun, hfinished⟩
    exact Interleave.mem_mergeLanguage_of_run hrun hfinished
  · exact Interleave.exists_run_of_mem_mergeLanguage (Interleave.areApart_compile hrow hdisjoint)

/-- **No block may count a token**, if none occurs in two blocks. -/
theorem isBlindTo_language_iff (h : compile name model limits = .ok expression)
    (hdisjoint : model.parts.Pairwise fun first second =>
      ∀ token ∈ first.occurrences, token ∉ second.occurrences) :
    IsBlindTo token expression.language ↔ ∀ block ∈ model.parts,
      IsBlindTo token block.language := by
  refine ⟨fun hblind block hblock => ?_, isBlindTo_language h⟩
  obtain ⟨before, after, hsplit⟩ := append_of_mem hblock
  have hperm : model.parts.Perm (block :: (before ++ after)) := hsplit ▸ perm_middle
  have hpairwise := (hperm.pairwise_iff fun {first second} hapart token hsecond hfirst =>
    hapart token hfirst hsecond).mp hdisjoint
  obtain ⟨hothers, -⟩ := pairwise_cons.mp hpairwise
  rw [language_eq_mergeLanguage h hdisjoint, mergeLanguage_perm (hperm.map Model.language),
    map_cons] at hblind
  refine isBlindTo_of_mergeLanguage
    (forall_mem_map.mpr fun other _ => other.exists_mem_language) ?_ hblind
  -- Words have no other tokens than their model.
  rintro token ⟨word, hword, htoken⟩
  refine forall_mem_map.mpr fun other hother word' hword' htoken' => ?_
  exact hothers other hother token (Model.mem_occurrences_of_mem block hword htoken)
    (Model.mem_occurrences_of_mem other hword' htoken')

end Expression

/-! ### Content models -/

namespace Model

mutual

/-- Whether each text in a model stands in a repetition that may be left out, with nothing but
choices, options and other repetitions in between. If `repeated`, such a repetition is around the
model. -/
def absorbsText (repeated : Bool) : Model → Bool
  | token name => repeated || name ≠ textToken
  | sequence blocks => absorbsTextAll false blocks
  | choice blocks => absorbsTextAll repeated blocks
  | interleave _ => false
  | optional block => absorbsText repeated block
  | kleene block => absorbsText true block
  | plus block => absorbsText repeated block

/-- Whether this holds of all blocks. -/
def absorbsTextAll (repeated : Bool) : List Model → Bool
  | [] => true
  | block :: rest => absorbsText repeated block && absorbsTextAll repeated rest

end

/-- Whether each text in a model stands in such a repetition. One that is the whole model may be one
that must not be left out. -/
def ignoresRepeatedText : Model → Bool
  | plus block => absorbsText true block
  | model => absorbsText false model

/-- A language, or the repetition of it. -/
def orRepeated (repeated : Bool) (language : Language String) : Language String :=
  if repeated then language∗ else language

theorem le_orRepeated (repeated : Bool) (language : Language String) :
    language ≤ orRepeated repeated language := by
  cases repeated
  · exact le_rfl
  · exact le_kstar

theorem orRepeated_mono (repeated : Bool) {language language' : Language String}
    (h : language ≤ language') : orRepeated repeated language ≤ orRepeated repeated language' := by
  cases repeated
  · exact h
  · exact kstar_mono h

section Exchange

variable (count : Nat)

mutual

/-- **Any number of texts may take the place of one** in the words of a model that absorbs text. -/
theorem exchanges_of_absorbsText (repeated : Bool) :
    ∀ model : Model, absorbsText repeated model = true →
    Exchanges textToken (replicate count textToken) model.language
      (orRepeated repeated model.language)
  | token name, h => by
    intro before after hword
    obtain ⟨rfl, hrest⟩ | ⟨-, hnil⟩ := append_eq_singleton_iff.mp hword
    · obtain ⟨rfl, rfl⟩ := cons.inj hrest
      cases repeated with
      | false => simp [absorbsText] at h
      | true =>
        rw [nil_append, append_nil]
        refine Language.mem_kstar.mpr ⟨replicate count [textToken], ?_, fun part hpart => ?_⟩
        · exact flatten_replicate_singleton.symm
        · exact eq_of_mem_replicate hpart
    · exact absurd hnil (cons_ne_nil _ _)
  | sequence blocks, h =>
    (exchanges_prod (exchanges_of_absorbsTextAll false blocks h)).mono (le_orRepeated repeated _)
  | choice [], _ => exchanges_one
  | choice (block :: rest), h => by
    refine exchanges_sum fun language hlanguage => ?_
    refine (exchanges_of_absorbsTextAll repeated (block :: rest) h language hlanguage).mono ?_
    exact orRepeated_mono repeated fun word hword => mem_sum_iff.mpr ⟨language, hlanguage, hword⟩
  | optional block, h =>
    ((exchanges_of_absorbsText repeated block h).mono
      (orRepeated_mono repeated le_self_add)).add exchanges_one
  | kleene block, h => (exchanges_of_absorbsText true block h).kstar.mono (le_orRepeated repeated _)
  | plus block, h => by
    have hblock := exchanges_of_absorbsText repeated block h
    cases repeated with
    | false => exact hblock.mul (hblock.mono le_kstar).kstar
    | true =>
      -- A repetition that must not be left out is, inside of another one, no different.
      have hsource : block.language * block.language∗ ≤ block.language∗ := mul_kstar_le_kstar
      have htarget : block.language ≤ block.language * block.language∗ :=
        le_mul_of_one_le_right' one_le_kstar
      intro before after hword
      exact kstar_mono htarget (hblock.kstar before after (hsource hword))

theorem exchanges_of_absorbsTextAll (repeated : Bool) : ∀ blocks : List Model,
    absorbsTextAll repeated blocks = true → ∀ language ∈ languages blocks,
      Exchanges textToken (replicate count textToken) language (orRepeated repeated language)
  | [], _, language, hlanguage => by simp [languages] at hlanguage
  | block :: rest, h, language, hlanguage => by
    rw [absorbsTextAll, Bool.and_eq_true] at h
    rw [languages, mem_cons] at hlanguage
    rcases hlanguage with rfl | hlanguage
    · exact exchanges_of_absorbsText repeated block h.1
    · exact exchanges_of_absorbsTextAll repeated rest h.2 language hlanguage

end

end Exchange

/-- **Text in repetitions is not counted.** -/
theorem isBlindTo_of_ignoresRepeatedText {model : Model} (h : model.ignoresRepeatedText = true) :
    IsBlindTo textToken model.language := by
  unfold ignoresRepeatedText at h
  split at h
  · rename_i block
    have hblind := isBlindTo_of_exchanges fun count =>
      (exchanges_of_absorbsText count true block h).kstar
    -- The words of this repetition are those of the other one, but for the empty word.
    have hmem : ∀ before after, before ++ textToken :: after ∈ (plus block).language ↔
        before ++ textToken :: after ∈ block.language∗ := by
      intro before after
      rw [← Language.one_add_self_mul_kstar_eq_kstar, Language.mem_add, Language.mem_one,
        or_iff_right (append_ne_nil_of_right_ne_nil before (cons_ne_nil _ _))]
      rfl
    intro before after
    rw [hmem, hmem]
    exact hblind before after
  · exact isBlindTo_of_exchanges fun count => exchanges_of_absorbsText count false model h

end Model

end RelaxSchema
