import RelaxSchema.Proofs.Content.Rows

/-!
# Content models that cannot be told apart

When two compiled expressions accept the same tokens. For a model that is no interleave its language
decides. An interleave may refuse a merge of words of its blocks, so there the languages of the
blocks have to be the same, one by one (`Model.interleaves`).

* `Expression.accepts_congr`: models with the same language and the same interleaves have
  expressions that accept the same tokens.

The languages of the blocks decide, because a compiled expression accepts what these take
(`Expression.accepts_iff_reads`).
-/

namespace RelaxSchema

open List

/-! ### Expressions -/

namespace Expression

variable {name name' : String} {model model' : Model} {limits limits' : Limits}
  {expression expression' : Expression}

/-- A model with an expression that is no interleave has none in it. -/
theorem interleaves_eq_nil (h : compile name model limits = .ok expression)
    (hmodel : ∀ blocks, model ≠ .interleave blocks) : model.interleaves = [] := by
  obtain ⟨dfa, -, hdfa⟩ := exists_single_of_compile h hmodel
  obtain ⟨fragment, nfa, hbuild, -⟩ := Model.toDfa_eq_ok hdfa
  exact Nfa.interleaves_eq_nil_of_build name model hbuild

/-- **The language and the interleaves of a content model decide which tokens are accepted.** -/
theorem accepts_congr (h : compile name model limits = .ok expression)
    (h' : compile name' model' limits' = .ok expression')
    (hlanguage : model.language = model'.language)
    (hinterleaves : model.interleaves = model'.interleaves) (tokens : List String) :
    expression.accepts tokens = expression'.accepts tokens := by
  suffices hparts : model.parts.map Model.language = model'.parts.map Model.language by
    rw [Bool.eq_iff_iff, accepts_iff_reads h, accepts_iff_reads h', hparts]
  by_cases hmodel : ∃ blocks, model = .interleave blocks
  · -- Only an interleave at the top is compiled, so the other model is one with the same blocks.
    obtain ⟨blocks, rfl⟩ := hmodel
    by_cases hmodel' : ∃ blocks', model' = .interleave blocks'
    · obtain ⟨blocks', rfl⟩ := hmodel'
      have hblocks : Model.languages blocks = Model.languages blocks' := (cons.inj hinterleaves).1
      rwa [Model.languages_eq_map, Model.languages_eq_map] at hblocks
    · have hnone := interleaves_eq_nil h' (not_exists.mp hmodel')
      exact absurd (hinterleaves.trans hnone) (cons_ne_nil _ _)
  · have hne := not_exists.mp hmodel
    have hne' : ∀ blocks', model' ≠ .interleave blocks' := by
      rintro blocks' rfl
      exact absurd (hinterleaves.symm.trans (interleaves_eq_nil h hne)) (cons_ne_nil _ _)
    rw [Model.parts_eq_singleton hne, Model.parts_eq_singleton hne', map_singleton, map_singleton,
      hlanguage]

end Expression

end RelaxSchema
