import Mathlib
import RelaxSchema.Content.Model
import RelaxSchema.Proofs.Traversal

/-!
# The language of a content model

`Model.language` says which lists of tokens a content model stands for, by recursion on the model
and without any automaton. Unordered content stands for the merges of the words of its blocks
(`Merge`, `mergeLanguage`).

* `Model.exists_mem_language`: every model has a word;
* `Model.exists_mem_of_mem_occurrences`, `Model.mem_occurrences_of_mem`: the tokens of a model are
  those of its words.
-/

namespace RelaxSchema

open Computability

/-! ### Merges -/

/-- `Merge words merged` says that `merged` holds the tokens of all `words`, those of each word in
their order. -/
inductive Merge : List (List String) → List String → Prop
  /-- Words without tokens merge to nothing. -/
  | nil {words : List (List String)} : (∀ word ∈ words, word = []) → Merge words []
  /-- The next token is the first one of some word. -/
  | cons {before after : List (List String)} {word merged : List String} (token : String) :
      Merge (before ++ word :: after) merged →
      Merge (before ++ (token :: word) :: after) (token :: merged)

/-- The merges of a word of each language. -/
def mergeLanguage (languages : List (Language String)) : Language String :=
  {merged | ∃ words, List.Forall₂ (· ∈ ·) words languages ∧ Merge words merged}

/-- A word without tokens does not matter. -/
theorem Merge.cons_nil {words : List (List String)} {merged : List String}
    (h : Merge words merged) : Merge ([] :: words) merged := by
  induction h with
  | nil hnil => exact .nil (by simpa using hnil)
  | @cons before after word merged token _ ih =>
    exact @Merge.cons ([] :: before) after word merged token ih

/-- Words may be merged in any order. -/
theorem Merge.perm {words words' : List (List String)} {merged : List String}
    (h : Merge words merged) (hp : words.Perm words') : Merge words' merged := by
  induction h generalizing words' with
  | nil hnil => exact .nil fun word hword => hnil word (hp.mem_iff.mpr hword)
  | @cons before after word merged token _ ih =>
    have hmem : (token :: word) ∈ words' := hp.mem_iff.mp (by simp)
    obtain ⟨before', after', rfl⟩ := List.append_of_mem hmem
    refine .cons token (ih ?_)
    -- Both lists hold the same words besides the one that the token is taken from.
    have hrest : (before ++ after).Perm (before' ++ after') :=
      (List.perm_cons _).mp (List.perm_middle.symm.trans (hp.trans List.perm_middle))
    exact List.perm_middle.trans ((hrest.cons word).trans List.perm_middle.symm)

theorem mergeLanguage_perm {languages languages' : List (Language String)}
    (hp : languages.Perm languages') : mergeLanguage languages = mergeLanguage languages' := by
  suffices h : ∀ {left right : List (Language String)}, left.Perm right →
      ∀ merged ∈ mergeLanguage left, merged ∈ mergeLanguage right from
    Language.ext fun merged => ⟨h hp merged, h hp.symm merged⟩
  rintro left right hperm merged ⟨words, hwords, hmerge⟩
  obtain ⟨words', hwords', hperm'⟩ :=
    List.perm_comp_forall₂ hperm.symm hwords.flip
  exact ⟨words', hwords'.flip, hmerge.perm hperm'.symm⟩

/-! ### Content models -/

namespace Model

mutual

/-- The lists of tokens that a content model stands for. -/
def language : Model → Language String
  | token name => {[name]}
  | sequence blocks => (languages blocks).prod
  | choice blocks => if blocks.isEmpty then 1 else (languages blocks).sum
  | interleave blocks => mergeLanguage (languages blocks)
  | optional block => language block + 1
  | kleene block => (language block)∗
  | plus block => language block * (language block)∗

/-- The languages of several content models. -/
def languages : List Model → List (Language String)
  | [] => []
  | block :: rest => language block :: languages rest

end

theorem languages_eq_map (blocks : List Model) : languages blocks = blocks.map language := by
  induction blocks with
  | nil => rfl
  | cons block rest ih => rw [languages, ih, List.map_cons]

mutual

/-- The languages of the blocks, for each interleave in a content model that is not in another
one. -/
def interleaves : Model → List (List (Language String))
  | token _ => []
  | sequence blocks => interleavesAll blocks
  | choice blocks => interleavesAll blocks
  | interleave blocks => [languages blocks]
  | optional block => interleaves block
  | kleene block => interleaves block
  | plus block => interleaves block

/-- The interleaves of several content models. -/
def interleavesAll : List Model → List (List (Language String))
  | [] => []
  | block :: rest => interleaves block ++ interleavesAll rest

end

theorem interleavesAll_append (before after : List Model) :
    interleavesAll (before ++ after) = interleavesAll before ++ interleavesAll after := by
  induction before with
  | nil => rfl
  | cons block rest ih => rw [List.cons_append, interleavesAll, interleavesAll, ih,
      List.append_assoc]

end Model

/-! ### Words of products, sums and merges -/

theorem mem_prod_iff {languages : List (Language String)} {word : List String} :
    word ∈ languages.prod ↔ ∃ words, List.Forall₂ (· ∈ ·) words languages ∧
      words.flatten = word := by
  induction languages generalizing word with
  | nil =>
    rw [List.prod_nil, Language.mem_one]
    constructor
    · rintro rfl
      exact ⟨[], .nil, rfl⟩
    · rintro ⟨words, hwords, rfl⟩
      rw [List.forall₂_nil_right_iff.mp hwords, List.flatten_nil]
  | cons language rest ih =>
    rw [List.prod_cons, Language.mem_mul]
    constructor
    · rintro ⟨first, hfirst, others, hothers, rfl⟩
      obtain ⟨words, hwords, rfl⟩ := ih.mp hothers
      exact ⟨first :: words, .cons hfirst hwords, List.flatten_cons⟩
    · rintro ⟨words, hwords, rfl⟩
      obtain ⟨first, others, hfirst, hothers, rfl⟩ := List.forall₂_cons_right_iff.mp hwords
      exact ⟨first, hfirst, others.flatten, ih.mpr ⟨others, hothers, rfl⟩, List.flatten_cons.symm⟩

theorem mem_sum_iff {languages : List (Language String)} {word : List String} :
    word ∈ languages.sum ↔ ∃ language ∈ languages, word ∈ language := by
  induction languages with
  | nil => simp [Language.notMem_zero]
  | cons language rest ih => rw [List.sum_cons, Language.mem_add, ih]; simp

/-- Words one after the other are a merge of them. -/
theorem Merge.flatten (words : List (List String)) : Merge words words.flatten := by
  induction words with
  | nil => exact .nil (by simp)
  | cons word rest ih =>
    induction word with
    | nil =>
      rw [List.flatten_cons, List.nil_append]
      exact ih.cons_nil
    | cons token word ihword =>
      rw [List.flatten_cons, List.cons_append, ← List.flatten_cons]
      exact @Merge.cons [] rest word _ token ihword

/-- A merge has no other tokens than the words. -/
theorem Merge.exists_mem {words : List (List String)} {merged : List String}
    (h : Merge words merged) {token : String} (htoken : token ∈ merged) :
    ∃ word ∈ words, token ∈ word := by
  induction h with
  | nil => simp at htoken
  | @cons before after word merged first _ ih =>
    rcases List.mem_cons.mp htoken with rfl | hrest
    · exact ⟨token :: word, by simp, by simp⟩
    · obtain ⟨other, hother, hmem⟩ := ih hrest
      rw [List.mem_append, List.mem_cons] at hother
      rcases hother with hbefore | rfl | hafter
      · exact ⟨other, by simp [hbefore], hmem⟩
      · exact ⟨first :: other, by simp, by simp [hmem]⟩
      · exact ⟨other, by simp [hafter], hmem⟩

/-! ### The tokens of words -/

theorem exists_forall₂ {languages : List (Language String)}
    (hword : ∀ language ∈ languages, ∃ word, word ∈ language) :
    ∃ words, List.Forall₂ (· ∈ ·) words languages := by
  induction languages with
  | nil => exact ⟨[], .nil⟩
  | cons first rest ih =>
    obtain ⟨word, h⟩ := hword first (by simp)
    obtain ⟨words, hwords⟩ := ih fun language hl => hword language (List.mem_cons_of_mem _ hl)
    exact ⟨word :: words, .cons h hwords⟩

/-- With a word of each language, one of them being a given word of one language. -/
theorem exists_forall₂_mem {languages : List (Language String)}
    (hword : ∀ language ∈ languages, ∃ word, word ∈ language) {language : Language String}
    (hmem : language ∈ languages) {word : List String} (h : word ∈ language) :
    ∃ words, List.Forall₂ (· ∈ ·) words languages ∧ word ∈ words := by
  induction languages with
  | nil => simp at hmem
  | cons first rest ih =>
    have hrest : ∀ language ∈ rest, ∃ word, word ∈ language :=
      fun language hl => hword language (List.mem_cons_of_mem _ hl)
    rcases List.mem_cons.mp hmem with rfl | hmem
    · obtain ⟨others, hothers⟩ := exists_forall₂ hrest
      exact ⟨word :: others, .cons h hothers, by simp⟩
    · obtain ⟨other, hother⟩ := hword first (by simp)
      obtain ⟨words, hwords, hin⟩ := ih hrest hmem
      exact ⟨other :: words, .cons hother hwords, List.mem_cons_of_mem _ hin⟩

namespace Model

mutual

/-- Every content model has a word. -/
theorem exists_mem_language : ∀ model : Model, ∃ word, word ∈ language model
  | token name => ⟨[name], rfl⟩
  | sequence blocks => by
    obtain ⟨words, hwords⟩ := exists_forall₂ (exists_mem_languages blocks)
    exact ⟨words.flatten, mem_prod_iff.mpr ⟨words, hwords, rfl⟩⟩
  | choice [] => ⟨[], rfl⟩
  | choice (block :: rest) => by
    obtain ⟨word, hword⟩ := exists_mem_language block
    exact ⟨word, mem_sum_iff.mpr ⟨block.language, by simp [languages], hword⟩⟩
  | interleave blocks => by
    obtain ⟨words, hwords⟩ := exists_forall₂ (exists_mem_languages blocks)
    exact ⟨words.flatten, words, hwords, .flatten words⟩
  | optional _ => ⟨[], Or.inr rfl⟩
  | kleene block => ⟨[], Language.nil_mem_kstar _⟩
  | plus block => by
    obtain ⟨word, hword⟩ := exists_mem_language block
    exact ⟨word ++ [], Language.append_mem_mul hword (Language.nil_mem_kstar _)⟩

theorem exists_mem_languages : ∀ blocks : List Model, ∀ language ∈ languages blocks,
    ∃ word, word ∈ language
  | [], language, h => by simp [languages] at h
  | block :: rest, language, h => by
    rw [languages, List.mem_cons] at h
    rcases h with rfl | h
    · exact exists_mem_language block
    · exact exists_mem_languages rest language h

end

mutual

/-- Each token of a content model occurs in a word. -/
theorem exists_mem_of_mem_occurrences : ∀ (model : Model) {name : String},
    name ∈ occurrences model → ∃ word ∈ language model, name ∈ word
  | token _, _, h => ⟨_, rfl, h⟩
  | sequence blocks, name, h => by
    obtain ⟨language, hlanguage, word, hword, hname⟩ := exists_mem_of_mem_occurrencesAll blocks h
    obtain ⟨words, hwords, hin⟩ :=
      exists_forall₂_mem (exists_mem_languages blocks) hlanguage hword
    exact ⟨words.flatten, mem_prod_iff.mpr ⟨words, hwords, rfl⟩,
      List.mem_flatten.mpr ⟨word, hin, hname⟩⟩
  | choice blocks, name, h => by
    obtain ⟨language, hlanguage, word, hword, hname⟩ := exists_mem_of_mem_occurrencesAll blocks h
    refine ⟨word, ?_, hname⟩
    have hblocks : blocks.isEmpty = false := by
      cases blocks with
      | nil => simp [languages] at hlanguage
      | cons _ _ => rfl
    rw [Model.language, hblocks]
    exact mem_sum_iff.mpr ⟨language, hlanguage, hword⟩
  | interleave blocks, name, h => by
    obtain ⟨language, hlanguage, word, hword, hname⟩ := exists_mem_of_mem_occurrencesAll blocks h
    obtain ⟨words, hwords, hin⟩ :=
      exists_forall₂_mem (exists_mem_languages blocks) hlanguage hword
    exact ⟨words.flatten, ⟨words, hwords, .flatten words⟩, List.mem_flatten.mpr ⟨word, hin, hname⟩⟩
  | optional block, name, h => by
    obtain ⟨word, hword, hname⟩ := exists_mem_of_mem_occurrences block h
    exact ⟨word, Or.inl hword, hname⟩
  | kleene block, name, h => by
    obtain ⟨word, hword, hname⟩ := exists_mem_of_mem_occurrences block h
    have hle : block.language ≤ block.language∗ := le_kstar
    exact ⟨word, hle hword, hname⟩
  | plus block, name, h => by
    obtain ⟨word, hword, hname⟩ := exists_mem_of_mem_occurrences block h
    exact ⟨word ++ [], Language.append_mem_mul hword (Language.nil_mem_kstar _),
      by simpa using hname⟩

theorem exists_mem_of_mem_occurrencesAll : ∀ (blocks : List Model) {name : String},
    name ∈ occurrencesAll blocks → ∃ language ∈ languages blocks, ∃ word ∈ language, name ∈ word
  | [], _, h => by simp [occurrencesAll] at h
  | block :: rest, name, h => by
    rw [occurrencesAll, List.mem_append] at h
    rcases h with h | h
    · obtain ⟨word, hword, hname⟩ := exists_mem_of_mem_occurrences block h
      exact ⟨block.language, by simp [languages], word, hword, hname⟩
    · obtain ⟨language, hlanguage, hword⟩ := exists_mem_of_mem_occurrencesAll rest h
      exact ⟨language, by simp [languages, hlanguage], hword⟩

end

theorem exists_mem_of_mem_kstar {language : Language String} {word : List String}
    (hword : word ∈ language∗) {name : String} (hname : name ∈ word) :
    ∃ part ∈ language, name ∈ part := by
  obtain ⟨parts, rfl, hparts⟩ := Language.mem_kstar.mp hword
  obtain ⟨part, hpart, hin⟩ := List.mem_flatten.mp hname
  exact ⟨part, hparts part hpart, hin⟩

mutual

/-- A word has no other tokens than its content model. -/
theorem mem_occurrences_of_mem : ∀ (model : Model) {word : List String} {name : String},
    word ∈ language model → name ∈ word → name ∈ occurrences model
  | token _, word, name, hword, hname => by
    obtain rfl : word = [_] := hword
    exact hname
  | sequence blocks, word, name, hword, hname => by
    obtain ⟨words, hwords, rfl⟩ := mem_prod_iff.mp hword
    obtain ⟨part, hpart, hin⟩ := List.mem_flatten.mp hname
    obtain ⟨language, hlanguage, hmem⟩ := exists_right_of_forall₂ hwords hpart
    exact mem_occurrencesAll_of_mem blocks hlanguage hmem hin
  | choice blocks, word, name, hword, hname => by
    rw [Model.language] at hword
    split at hword
    · obtain rfl : word = [] := hword
      simp at hname
    · obtain ⟨language, hlanguage, hmem⟩ := mem_sum_iff.mp hword
      exact mem_occurrencesAll_of_mem blocks hlanguage hmem hname
  | interleave blocks, word, name, hword, hname => by
    obtain ⟨words, hwords, hmerge⟩ := hword
    obtain ⟨part, hpart, hin⟩ := hmerge.exists_mem hname
    obtain ⟨language, hlanguage, hmem⟩ := exists_right_of_forall₂ hwords hpart
    exact mem_occurrencesAll_of_mem blocks hlanguage hmem hin
  | optional block, word, name, hword, hname => by
    rcases hword with hword | hword
    · exact mem_occurrences_of_mem block hword hname
    · obtain rfl : word = [] := hword
      simp at hname
  | kleene block, word, name, hword, hname => by
    obtain ⟨part, hpart, hin⟩ := exists_mem_of_mem_kstar hword hname
    exact mem_occurrences_of_mem block hpart hin
  | plus block, word, name, hword, hname => by
    obtain ⟨first, hfirst, others, hothers, rfl⟩ := Language.mem_mul.mp hword
    rcases List.mem_append.mp hname with hname | hname
    · exact mem_occurrences_of_mem block hfirst hname
    · obtain ⟨part, hpart, hin⟩ := exists_mem_of_mem_kstar hothers hname
      exact mem_occurrences_of_mem block hpart hin

theorem mem_occurrencesAll_of_mem : ∀ (blocks : List Model) {language : Language String},
    language ∈ languages blocks → ∀ {word : List String} {name : String},
      word ∈ language → name ∈ word → name ∈ occurrencesAll blocks
  | [], _, h, _, _, _, _ => by simp [languages] at h
  | block :: rest, language, h, word, name, hword, hname => by
    rw [languages, List.mem_cons] at h
    rw [occurrencesAll, List.mem_append]
    rcases h with rfl | h
    · exact Or.inl (mem_occurrences_of_mem block hword hname)
    · exact Or.inr (mem_occurrencesAll_of_mem rest h hword hname)

end

end Model

end RelaxSchema
