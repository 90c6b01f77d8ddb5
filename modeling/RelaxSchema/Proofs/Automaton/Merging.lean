import Mathlib
import RelaxSchema.Automaton.Interleave
import RelaxSchema.Proofs.Automaton.Tokens

/-!
# Unordered content

* `Interleave.accepts_iff_merge`: the automata of unordered content read only merges of words of the
  blocks, and all of them if no token occurs in two blocks.

A row of states stands for the merges of what the blocks can still read (`remaining`). A token takes
a first token off one language of the row, namely that of the block which `select` finds. With
disjoint alphabets there is at most one block that can read the token, so nothing is lost by taking
the first.
-/

namespace RelaxSchema

open List

/-! ### Taking a token off a merge -/

theorem nil_mem_mergeLanguage_iff {languages : List (Language String)} :
    [] ∈ mergeLanguage languages ↔ ∀ language ∈ languages, [] ∈ language := by
  constructor
  · rintro ⟨words, hwords, hmerge⟩
    have hnil : ∀ word ∈ words, word = [] := by
      cases hmerge with
      | nil hnil => exact hnil
    clear hmerge
    induction hwords with
    | nil => simp
    | @cons word language words languages hword _ ih =>
      obtain rfl := hnil word (by simp)
      intro other hother
      rcases mem_cons.mp hother with rfl | hother
      · exact hword
      · exact ih (fun word h => hnil word (mem_cons_of_mem _ h)) other hother
  · intro hnil
    refine ⟨languages.map fun _ => [], ?_, .nil (by simp)⟩
    induction languages with
    | nil => exact .nil
    | cons language rest ih =>
      exact .cons (hnil language (by simp)) (ih fun other h => hnil other (mem_cons_of_mem _ h))

/-- The first token of a merge is the first one of a word of some language. -/
theorem cons_mem_mergeLanguage_iff {languages : List (Language String)} {token : String}
    {word : List String} :
    token :: word ∈ mergeLanguage languages ↔ ∃ before language after,
      languages = before ++ language :: after ∧
        word ∈ mergeLanguage (before ++ language.leftQuotient [token] :: after) := by
  constructor
  · rintro ⟨words, hwords, hmerge⟩
    cases hmerge with
    | @cons before after first _ _ hrest =>
      obtain ⟨befores, others, rfl, hbefore, hothers⟩ := forall₂_append_left hwords
      obtain ⟨language, afters, hfirst, hafter, rfl⟩ := forall₂_cons_left_iff.mp hothers
      exact ⟨befores, language, afters, rfl, before ++ first :: after,
        rel_append hbefore (.cons hfirst hafter), hrest⟩
  · rintro ⟨before, language, after, rfl, words, hwords, hmerge⟩
    obtain ⟨befores, others, rfl, hbefore, hothers⟩ := forall₂_append_left hwords.flip
    obtain ⟨first, afters, hfirst, hafter, rfl⟩ := forall₂_cons_left_iff.mp hothers
    exact ⟨befores ++ (token :: first) :: afters,
      rel_append hbefore.flip (.cons hfirst hafter.flip), .cons token hmerge⟩

theorem exists_mem_of_mem_mergeLanguage {languages : List (Language String)} {word : List String}
    (h : word ∈ mergeLanguage languages) {language : Language String}
    (hmem : language ∈ languages) : ∃ part, part ∈ language := by
  obtain ⟨words, hwords, -⟩ := h
  obtain ⟨position, hlt, rfl⟩ := mem_iff_getElem.mp hmem
  have hlength := hwords.length_eq
  exact ⟨words[position], hwords.get (by omega) hlt⟩

/-! ### What a row of states can still read -/

/-- The lists of tokens that are read from a state without a missing move and may end there. -/
def Dfa.languageFrom (dfa : Dfa) (state : Nat) : Language String :=
  {word | ∃ last, word.foldlM dfa.consume state = some last ∧ dfa.isFinished last = true}

namespace Dfa

variable {dfa : Dfa} {state next : Nat} {token : String}

theorem nil_mem_languageFrom_iff : [] ∈ dfa.languageFrom state ↔ dfa.isFinished state = true := by
  constructor
  · rintro ⟨last, hrun, hfinished⟩
    obtain rfl : state = last := Option.some.inj hrun
    exact hfinished
  · exact fun hfinished => ⟨state, rfl, hfinished⟩

theorem leftQuotient_languageFrom (h : dfa.consume state token = some next) :
    (dfa.languageFrom state).leftQuotient [token] = dfa.languageFrom next := by
  refine Language.ext fun word => ?_
  rw [Language.mem_leftQuotient]
  show (∃ last, (token :: word).foldlM dfa.consume state = some last ∧ _) ↔
    ∃ last, word.foldlM dfa.consume next = some last ∧ _
  rw [foldlM_cons, h, Option.bind_eq_bind, Option.bind_some]

theorem exists_consume_of_mem_leftQuotient {word : List String}
    (h : word ∈ (dfa.languageFrom state).leftQuotient [token]) :
    ∃ next, dfa.consume state token = some next := by
  obtain ⟨last, hrun, -⟩ := h
  rw [singleton_append, foldlM_cons] at hrun
  obtain ⟨next, hnext, -⟩ := Option.bind_eq_some_iff.mp hrun
  exact ⟨next, hnext⟩

end Dfa

namespace Interleave

/-- What each block can still read. -/
def remaining (blocks : List Dfa) (states : List Nat) : List (Language String) :=
  blocks.zipWith Dfa.languageFrom states

/-- A token takes a first token off the language of the block that it goes to. -/
theorem remaining_of_select {token : String} {blocks : List Dfa} {states : List Nat}
    {position next : Nat} (h : select token blocks states = some (position, next)) :
    ∃ before language after, remaining blocks states = before ++ language :: after ∧
      remaining blocks (states.set position next)
        = before ++ language.leftQuotient [token] :: after := by
  induction blocks generalizing states position with
  | nil => simp [select] at h
  | cons block blocks ih =>
    cases states with
    | nil => simp [select] at h
    | cons state states =>
      rw [select] at h
      split at h
      · rename_i successor hconsume
        obtain ⟨rfl, rfl⟩ := Prod.mk.inj (Option.some.inj h)
        refine ⟨[], block.languageFrom state, remaining blocks states, rfl, ?_⟩
        rw [Dfa.leftQuotient_languageFrom hconsume]
        rfl
      · obtain ⟨⟨later, successor⟩, hrest, heq⟩ := Option.map_eq_some_iff.mp h
        obtain ⟨rfl, rfl⟩ := Prod.mk.inj heq
        obtain ⟨before, language, after, hbefore, hafter⟩ := ih hrest
        refine ⟨block.languageFrom state :: before, language, after, ?_, ?_⟩
        · rw [cons_append, ← hbefore]
          rfl
        · rw [cons_append, ← hafter]
          rfl

theorem mem_remaining {blocks : List Dfa} {states : List Nat} {language : Language String}
    (h : language ∈ remaining blocks states) :
    ∃ block ∈ blocks, ∃ state, language = block.languageFrom state := by
  rw [remaining, ← map_uncurry_zip_eq_zipWith] at h
  obtain ⟨⟨block, state⟩, hpair, rfl⟩ := mem_map.mp h
  exact ⟨block, (of_mem_zip hpair).1, state, rfl⟩

/-- No token is read by two of the automata. -/
def AreApart (blocks : List Dfa) : Prop :=
  blocks.Pairwise fun first second =>
    ∀ token, first.mentions token = true → ¬ second.mentions token = true

/-- With disjoint alphabets a token goes to the block that can read it. -/
theorem select_of_areApart {token : String} {blocks : List Dfa} {states : List Nat}
    (hapart : AreApart blocks) {before after : List (Language String)} {language : Language String}
    (hsplit : remaining blocks states = before ++ language :: after) {part : List String}
    (hpart : part ∈ language.leftQuotient [token]) :
    ∃ position next, select token blocks states = some (position, next) ∧
      remaining blocks (states.set position next)
        = before ++ language.leftQuotient [token] :: after := by
  induction blocks generalizing states before with
  | nil => simp [remaining] at hsplit
  | cons block blocks ih =>
    cases states with
    | nil => simp [remaining] at hsplit
    | cons state states =>
      obtain ⟨hfirst, hrest⟩ := pairwise_cons.mp hapart
      cases before with
      | nil =>
        obtain ⟨rfl, rfl⟩ := cons.inj hsplit
        obtain ⟨next, hnext⟩ := Dfa.exists_consume_of_mem_leftQuotient hpart
        refine ⟨0, next, ?_, ?_⟩
        · rw [select, hnext]
        · rw [Dfa.leftQuotient_languageFrom hnext]
          rfl
      | cons first before =>
        obtain ⟨rfl, hlater⟩ := cons.inj hsplit
        obtain ⟨position, next, hselect, hremaining⟩ := ih hrest hlater
        -- A later block can read the token, so the first one cannot.
        have hnone : block.consume state token = none := by
          have hmem : language ∈ remaining blocks states := by
            rw [show remaining blocks states = before ++ language :: after from hlater]
            exact mem_append_cons_self
          obtain ⟨other, hother, later, rfl⟩ := mem_remaining hmem
          obtain ⟨successor, hsuccessor⟩ := Dfa.exists_consume_of_mem_leftQuotient hpart
          rw [Option.eq_none_iff_forall_ne_some]
          intro taken htaken
          exact hfirst other hother token (Dfa.mentions_iff_exists_consume.mpr ⟨_, _, htaken⟩)
            (Dfa.mentions_iff_exists_consume.mpr ⟨_, _, hsuccessor⟩)
        refine ⟨position + 1, next, ?_, ?_⟩
        · rw [select, hnone, hselect]
          rfl
        · rw [cons_append, ← hremaining]
          rfl

/-! ### Runs -/

/-- The tokens are read from the start states without a refusal, and the input may end there. -/
def Accepts (interleave : Interleave) (word : List String) : Prop :=
  ∃ states, word.foldlM interleave.consume interleave.initial = some states ∧
    interleave.isFinished states = true

theorem isFinished_iff {interleave : Interleave} {states : List Nat} :
    interleave.isFinished states = true ↔
      ∀ language ∈ remaining interleave.blocks states, [] ∈ language := by
  rw [isFinished, all_eq_true, remaining, ← map_uncurry_zip_eq_zipWith, forall_mem_map]
  exact forall₂_congr fun _ _ => Dfa.nil_mem_languageFrom_iff.symm

/-- **A run distributes its tokens** over the blocks, each of which reads a word. -/
theorem mem_mergeLanguage_of_run {interleave : Interleave} {word : List String}
    {states last : List Nat} (hrun : word.foldlM interleave.consume states = some last)
    (hfinished : interleave.isFinished last = true) :
    word ∈ mergeLanguage (remaining interleave.blocks states) := by
  induction word generalizing states with
  | nil =>
    obtain rfl : states = last := Option.some.inj hrun
    exact nil_mem_mergeLanguage_iff.mpr (isFinished_iff.mp hfinished)
  | cons token word ih =>
    rw [foldlM_cons] at hrun
    obtain ⟨following, hconsume, hrest⟩ := Option.bind_eq_some_iff.mp hrun
    obtain ⟨⟨position, next⟩, hselect, rfl⟩ := Option.map_eq_some_iff.mp hconsume
    obtain ⟨before, language, after, hbefore, hafter⟩ := remaining_of_select hselect
    exact cons_mem_mergeLanguage_iff.mpr
      ⟨before, language, after, hbefore, hafter ▸ ih hrest⟩

/-- **Disjoint alphabets leave no choice**, so every merge is read. -/
theorem exists_run_of_mem_mergeLanguage {interleave : Interleave}
    (hapart : AreApart interleave.blocks) {word : List String} {states : List Nat}
    (h : word ∈ mergeLanguage (remaining interleave.blocks states)) :
    ∃ last, word.foldlM interleave.consume states = some last ∧
      interleave.isFinished last = true := by
  induction word generalizing states with
  | nil => exact ⟨states, rfl, isFinished_iff.mpr (nil_mem_mergeLanguage_iff.mp h)⟩
  | cons token word ih =>
    obtain ⟨before, language, after, hsplit, hrest⟩ := cons_mem_mergeLanguage_iff.mp h
    obtain ⟨part, hpart⟩ := exists_mem_of_mem_mergeLanguage hrest mem_append_cons_self
    obtain ⟨position, next, hselect, hremaining⟩ := select_of_areApart hapart hsplit hpart
    have hconsume : interleave.consume states token = some (states.set position next) := by
      rw [consume, hselect]
      rfl
    rw [foldlM_cons, hconsume]
    exact ih (hremaining ▸ hrest)

/-! ### Compiled blocks -/

variable {blocks : List Model} {element : String} {limits : Limits} {interleave : Interleave}

/-- Compilation gives each block its automaton. -/
theorem compile_eq_ok_iff : compile blocks element limits = .ok interleave ↔
    Forall₂ (fun block dfa => block.toDfa element limits = .ok dfa) blocks interleave.blocks := by
  rw [compile, map_eq_ok_iff, ← mapM_eq_ok_iff]
  constructor
  · rintro ⟨dfas, hdfas, rfl⟩
    exact hdfas
  · exact fun hdfas => ⟨interleave.blocks, hdfas, rfl⟩

theorem remaining_initial (h : compile blocks element limits = .ok interleave) :
    remaining interleave.blocks interleave.initial = blocks.map Model.language := by
  obtain ⟨dfas⟩ := interleave
  have hdfas : Forall₂ _ blocks dfas := compile_eq_ok_iff.mp h
  clear h
  rw [remaining, initial]
  induction hdfas with
  | nil => rfl
  | cons hblock _ ih =>
    rw [map_cons, zipWith_cons_cons, ih, map_cons, ← Model.language_toDfa hblock]
    rfl

/-- Blocks without a common token have automata without a common token. -/
theorem areApart_compile (h : compile blocks element limits = .ok interleave)
    (hdisjoint : blocks.Pairwise fun first second =>
      ∀ token ∈ first.occurrences, token ∉ second.occurrences) : AreApart interleave.blocks := by
  obtain ⟨dfas⟩ := interleave
  have hdfas : Forall₂ _ blocks dfas := compile_eq_ok_iff.mp h
  clear h
  show AreApart dfas
  induction hdfas with
  | nil => exact .nil
  | @cons block dfa rest dfas hblock hrest ih =>
    obtain ⟨hfirst, hothers⟩ := pairwise_cons.mp hdisjoint
    refine .cons (fun other hother token hmentions hboth => ?_) (ih hothers)
    obtain ⟨second, hsecond, hdfa⟩ := exists_right_of_forall₂ hrest.flip hother
    exact hfirst second hsecond token ((Model.mentions_toDfa_iff hblock token).mp hmentions)
      ((Model.mentions_toDfa_iff hdfa token).mp hboth)

theorem exists_compile_perm (h : compile blocks element limits = .ok interleave)
    {blocks' : List Model} (hperm : blocks.Perm blocks') :
    ∃ interleave', compile blocks' element limits = .ok interleave' := by
  obtain ⟨dfas, hdfas, -⟩ := perm_comp_forall₂ hperm.symm (compile_eq_ok_iff.mp h)
  exact ⟨⟨dfas⟩, compile_eq_ok_iff.mpr hdfas⟩

theorem accepts_of_mem_mergeLanguage (h : compile blocks element limits = .ok interleave)
    (hdisjoint : blocks.Pairwise fun first second =>
      ∀ token ∈ first.occurrences, token ∉ second.occurrences) {word : List String}
    (hword : word ∈ mergeLanguage (blocks.map Model.language)) : interleave.Accepts word :=
  exists_run_of_mem_mergeLanguage (areApart_compile h hdisjoint) (remaining_initial h ▸ hword)

theorem mem_mergeLanguage_of_accepts (h : compile blocks element limits = .ok interleave)
    {word : List String} (haccepts : interleave.Accepts word) :
    word ∈ mergeLanguage (blocks.map Model.language) := by
  obtain ⟨last, hrun, hfinished⟩ := haccepts
  exact remaining_initial h ▸ mem_mergeLanguage_of_run hrun hfinished

/-- **Unordered content reads merges**, and all of them if no token occurs in two blocks. It is then
of no account in which order the blocks are declared. -/
theorem accepts_iff_merge (blocks : List Model) (element : String) (limits : Limits)
    (interleave : Interleave) (h : compile blocks element limits = .ok interleave) :
    (∀ word, interleave.Accepts word → ∃ words,
      Forall₂ (fun part block => part ∈ Model.language block) words blocks ∧ Merge words word) ∧
    ((blocks.Pairwise fun first second => ∀ token ∈ first.occurrences, token ∉ second.occurrences) →
      (∀ word words, Forall₂ (fun part block => part ∈ Model.language block) words blocks →
        Merge words word → interleave.Accepts word) ∧
      ∀ blocks', blocks.Perm blocks' → ∃ interleave',
        compile blocks' element limits = .ok interleave' ∧
          ∀ word, interleave'.Accepts word ↔ interleave.Accepts word) := by
  refine ⟨fun word haccepts => ?_, fun hdisjoint => ⟨fun word words hwords hmerge => ?_,
    fun blocks' hperm => ?_⟩⟩
  · obtain ⟨words, hwords, hmerge⟩ := mem_mergeLanguage_of_accepts h haccepts
    exact ⟨words, forall₂_map_right_iff.mp hwords, hmerge⟩
  · exact accepts_of_mem_mergeLanguage h hdisjoint ⟨words, forall₂_map_right_iff.mpr hwords, hmerge⟩
  · obtain ⟨interleave', h'⟩ := exists_compile_perm h hperm
    have hdisjoint' := (hperm.pairwise_iff fun {first second} hapart token hsecond hfirst =>
      hapart token hfirst hsecond).mp hdisjoint
    have hsame := mergeLanguage_perm (hperm.map Model.language)
    refine ⟨interleave', h', fun word => ⟨fun haccepts => ?_, fun haccepts => ?_⟩⟩
    · exact accepts_of_mem_mergeLanguage h hdisjoint
        (hsame ▸ mem_mergeLanguage_of_accepts h' haccepts)
    · exact accepts_of_mem_mergeLanguage h' hdisjoint'
        (hsame ▸ mem_mergeLanguage_of_accepts h haccepts)

/-- A token of the second block between two of the first, and the blocks the other way round. -/
theorem accepts_iff_merge_two :
    compile [.plus (.token "a"), .token "b"] "e" {} = .ok
        ⟨[⟨#[⟨[("a", 1)], false⟩, ⟨[("a", 1)], true⟩]⟩, ⟨#[⟨[("b", 1)], false⟩, ⟨[], true⟩]⟩]⟩ ∧
      Accepts ⟨[⟨#[⟨[("a", 1)], false⟩, ⟨[("a", 1)], true⟩]⟩, ⟨#[⟨[("b", 1)], false⟩, ⟨[], true⟩]⟩]⟩
        ["a", "b", "a"] ∧
      ∃ interleave', compile [.token "b", .plus (.token "a")] "e" {} = .ok interleave' ∧
        interleave'.Accepts ["a", "b", "a"] := by
  have hcompile : compile [.plus (.token "a"), .token "b"] "e" {} = .ok
      ⟨[⟨#[⟨[("a", 1)], false⟩, ⟨[("a", 1)], true⟩]⟩, ⟨#[⟨[("b", 1)], false⟩, ⟨[], true⟩]⟩]⟩ := by
    cbv
  have hdisjoint : [Model.plus (.token "a"), .token "b"].Pairwise fun first second =>
      ∀ token ∈ first.occurrences, token ∉ second.occurrences := by
    simp [Model.occurrences]
  obtain ⟨hcomplete, hperm⟩ := (accepts_iff_merge _ _ _ _ hcompile).2 hdisjoint
  have haccepts := hcomplete ["a", "b", "a"] [["a", "a"], ["b"]]
    (.cons ⟨["a"], rfl, ["a"],
        Language.mem_kstar.mpr ⟨[["a"]], rfl, fun _ hpart => mem_singleton.mp hpart⟩, rfl⟩
      (.cons rfl .nil))
    (@Merge.cons [] [["b"]] ["a"] _ "a" (@Merge.cons [["a"]] [] [] _ "b"
      (@Merge.cons [] [[]] [] _ "a" (.nil (by simp)))))
  obtain ⟨interleave', hcompile', hsame⟩ := hperm [.token "b", .plus (.token "a")] (.swap _ _ [])
  exact ⟨hcompile, haccepts, interleave', hcompile', (hsame _).mpr haccepts⟩

end Interleave

end RelaxSchema
