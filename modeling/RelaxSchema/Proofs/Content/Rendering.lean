import RelaxSchema.Proofs.Content.Language

/-!
# Reading the written form

The written form of a content model does not say of a list of at most one block whether it is a
sequence or a choice. Everything else can be read from it, if the tokens do not use its punctuation.

* `Model.Exchanged`: models that differ in such lists only;
* `Model.Exchanged.render_eq`, `Model.Exchanged.language_eq`: they have the same written form and
  the same language;
* `Model.render_eq_iff_exchanged`: and no other models have the same written form.

Marks for repetition stand behind a block, so a block ends only where no mark follows. A model is
therefore divided into its core and its marks, and two written forms with something behind them are
compared core by core: which core it is and where it ends is seen from what cannot be part of it
(`Model.exchanged_core`). Where no mark follows, the marks are the same as well
(`Model.exchanged_of_append`).
-/

namespace RelaxSchema.Model

open List

/-! ### Models that are written alike -/

/-- Models are the same but for lists of at most one block, which may be sequences or choices. -/
inductive Exchanged : Model → Model → Prop
  /-- A token. -/
  | token (name : String) : Exchanged (token name) (token name)
  /-- Sequences. -/
  | sequence {blocks others : List Model} : Forall₂ Exchanged blocks others →
      Exchanged (sequence blocks) (sequence others)
  /-- Choices. -/
  | choice {blocks others : List Model} : Forall₂ Exchanged blocks others →
      Exchanged (choice blocks) (choice others)
  /-- A sequence and a choice of at most one block. -/
  | sequence_choice {blocks others : List Model} : blocks.length ≤ 1 →
      Forall₂ Exchanged blocks others → Exchanged (sequence blocks) (choice others)
  /-- A choice and a sequence of at most one block. -/
  | choice_sequence {blocks others : List Model} : blocks.length ≤ 1 →
      Forall₂ Exchanged blocks others → Exchanged (choice blocks) (sequence others)
  /-- Unordered contents. -/
  | interleave {blocks others : List Model} : Forall₂ Exchanged blocks others →
      Exchanged (interleave blocks) (interleave others)
  /-- Optional blocks. -/
  | optional {block other : Model} : Exchanged block other →
      Exchanged (optional block) (optional other)
  /-- Blocks that come any number of times. -/
  | kleene {block other : Model} : Exchanged block other → Exchanged (kleene block) (kleene other)
  /-- Blocks that come at least once. -/
  | plus {block other : Model} : Exchanged block other → Exchanged (plus block) (plus other)

/-- A list of at most one block is a sequence or a choice of it, which is the same. -/
theorem sum_languages_eq_prod {blocks : List Model} (h : blocks.length ≤ 1) :
    (if blocks.isEmpty then 1 else (languages blocks).sum) = (languages blocks).prod := by
  match blocks, h with
  | [], _ => rfl
  | [block], _ =>
    show (languages [block]).sum = _
    rw [languages, languages, sum_singleton, prod_singleton]

theorem isEmpty_eq_of_forall₂ {blocks others : List Model} (h : Forall₂ Exchanged blocks others) :
    blocks.isEmpty = others.isEmpty := by
  cases h <;> rfl

theorem renderAll_eq_renderAll {separator separator' : String} {blocks : List Model}
    (h : blocks.length ≤ 1) : renderAll separator blocks = renderAll separator' blocks := by
  match blocks, h with
  | [], _ | [_], _ => rfl

mutual

/-- Models that are written alike have the same language. -/
theorem Exchanged.language_eq : ∀ {model other : Model}, Exchanged model other →
    model.language = other.language
  | .token _, _, .token _ => rfl
  | .sequence _, _, .sequence h => by rw [language, language, languages_eq_of_exchanged h]
  | .choice _, _, .choice h => by
    rw [language, language, languages_eq_of_exchanged h, isEmpty_eq_of_forall₂ h]
  | .sequence _, _, .sequence_choice hlength h => by
    rw [language, language, languages_eq_of_exchanged h,
      sum_languages_eq_prod (h.length_eq ▸ hlength)]
  | .choice _, _, .choice_sequence hlength h => by
    rw [language, language, sum_languages_eq_prod hlength, languages_eq_of_exchanged h]
  | .interleave _, _, .interleave h => by rw [language, language, languages_eq_of_exchanged h]
  | .optional _, _, .optional h => by rw [language, language, h.language_eq]
  | .kleene _, _, .kleene h => by rw [language, language, h.language_eq]
  | .plus _, _, .plus h => by rw [language, language, h.language_eq]

theorem languages_eq_of_exchanged :
    ∀ {blocks others : List Model}, Forall₂ Exchanged blocks others →
    languages blocks = languages others
  | [], _, .nil => rfl
  | _ :: _, _, .cons h hrest => by
    rw [languages, languages, h.language_eq, languages_eq_of_exchanged hrest]

end

theorem renderAll_cons_cons (separator : String) (block next : Model) (rest : List Model) :
    renderAll separator (block :: next :: rest) =
      render block ++ separator ++ renderAll separator (next :: rest) := by
  rw [renderAll]
  exact nofun

mutual

/-- Models that are written alike have the same written form. -/
theorem Exchanged.render_eq : ∀ {model other : Model}, Exchanged model other →
    model.render = other.render
  | .token _, _, .token _ => rfl
  | .sequence _, _, .sequence h => by rw [render, render, renderAll_eq_of_exchanged "," h]
  | .choice _, _, .choice h => by rw [render, render, renderAll_eq_of_exchanged "|" h]
  | .sequence _, _, .sequence_choice hlength h => by
    rw [render, render, renderAll_eq_of_exchanged "," h,
      renderAll_eq_renderAll (h.length_eq ▸ hlength)]
  | .choice _, _, .choice_sequence hlength h => by
    rw [render, render, renderAll_eq_of_exchanged "|" h,
      renderAll_eq_renderAll (h.length_eq ▸ hlength)]
  | .interleave _, _, .interleave h => by rw [render, render, renderAll_eq_of_exchanged ", " h]
  | .optional _, _, .optional h => by rw [render, render, h.render_eq]
  | .kleene _, _, .kleene h => by rw [render, render, h.render_eq]
  | .plus _, _, .plus h => by rw [render, render, h.render_eq]

theorem renderAll_eq_of_exchanged (separator : String) : ∀ {blocks others : List Model},
    Forall₂ Exchanged blocks others → renderAll separator blocks = renderAll separator others
  | [], _, .nil => rfl
  | [_], _, .cons h .nil => h.render_eq
  | _ :: _ :: _, _, .cons h (.cons h' hrest) => by
    rw [renderAll_cons_cons, renderAll_cons_cons, h.render_eq,
      renderAll_eq_of_exchanged separator (.cons h' hrest)]

end

/-! ### Characters -/

/-- The characters that have a meaning in written forms. -/
def punctuation : List Char := ['(', ')', '[', ']', ',', '|', '?', '*', '+', ' ']

/-- A name that can be told from the punctuation around it. -/
def IsPlainName (name : String) : Prop := name ≠ "" ∧ ∀ c ∈ name.toList, c ∉ punctuation

/-- All tokens of some models are plain names. -/
def ArePlain (blocks : List Model) : Prop := ∀ name ∈ occurrencesAll blocks, IsPlainName name

/-- All tokens of a model are plain names. -/
def IsPlain (model : Model) : Prop := ∀ name ∈ model.occurrences, IsPlainName name

theorem arePlain_cons {block : Model} {rest : List Model} :
    ArePlain (block :: rest) ↔ block.IsPlain ∧ ArePlain rest := by
  rw [ArePlain, occurrencesAll, forall_mem_append]
  rfl

theorem IsPlainName.exists_head {name : String} (h : IsPlainName name) :
    ∃ c rest, name.toList = c :: rest ∧ c ∉ punctuation := by
  obtain ⟨c, rest, htext⟩ := exists_cons_of_ne_nil fun hnil =>
    h.1 (String.toList_eq_nil_iff.mp hnil)
  exact ⟨c, rest, htext, h.2 c (htext ▸ mem_cons_self)⟩

/-- What may stand behind a block without its marks: nothing, or a mark, or the rest of a list. -/
def EndsCore (rest : List Char) : Prop := ∀ c ∈ rest.head?, c ∈ [')', ',', '|', '?', '*', '+']

/-- What may stand behind a block with its marks: nothing, or the rest of a list. -/
def EndsBlock (rest : List Char) : Prop := ∀ c ∈ rest.head?, c ∈ [')', ',', '|']

theorem EndsBlock.endsCore {rest : List Char} (h : EndsBlock rest) : EndsCore rest := fun c hc =>
  subset_append_left [')', ',', '|'] ['?', '*', '+'] (h c hc)

/-- Two texts are the same up to the first character of another kind, and then the rests are the
same. -/
theorem append_inj_of_kind {kind : Char → Prop} {first second rest rest' : List Char}
    (hfirst : ∀ c ∈ first, kind c) (hsecond : ∀ c ∈ second, kind c)
    (hrest : ∀ c ∈ rest.head?, ¬ kind c) (hrest' : ∀ c ∈ rest'.head?, ¬ kind c)
    (h : first ++ rest = second ++ rest') :
    first = second ∧ rest = rest' := by
  induction first generalizing second with
  | nil =>
    cases second with
    | nil => exact ⟨rfl, h⟩
    | cons c second =>
      have hrest : rest = c :: (second ++ rest') := h
      subst hrest
      exact absurd (hsecond c mem_cons_self) (hrest c rfl)
  | cons c first ih =>
    cases second with
    | nil =>
      have hrest' : c :: (first ++ rest) = rest' := h
      subst hrest'
      exact absurd (hfirst c mem_cons_self) (hrest' c rfl)
    | cons c' second =>
      obtain ⟨rfl, htail⟩ := cons.inj h
      obtain ⟨rfl, hrests⟩ := ih (fun c hc => hfirst c (mem_cons_of_mem _ hc))
        (fun c hc => hsecond c (mem_cons_of_mem _ hc)) htail
      exact ⟨rfl, hrests⟩

/-! ### Cores and marks -/

/-- The token or the list that the marks of a model belong to. -/
def core : Model → Model
  | optional block | kleene block | plus block => core block
  | token name => token name
  | sequence blocks => sequence blocks
  | choice blocks => choice blocks
  | interleave blocks => interleave blocks

/-- The marks of a model, innermost first. -/
def marks : Model → List Char
  | optional block => marks block ++ ['?']
  | kleene block => marks block ++ ['*']
  | plus block => marks block ++ ['+']
  | token _ | sequence _ | choice _ | interleave _ => []

theorem toList_render :
    ∀ model : Model, model.render.toList = model.core.render.toList ++ model.marks
  | optional block | kleene block | plus block => by
    rw [render, String.toList_append, toList_render block, append_assoc]
    rfl
  | token _ | sequence _ | choice _ | interleave _ => (append_nil _).symm

theorem occurrences_core : ∀ model : Model, model.core.occurrences = model.occurrences
  | optional block | kleene block | plus block => occurrences_core block
  | token _ | sequence _ | choice _ | interleave _ => rfl

/-- The name that the marks of a model belong to. -/
theorem IsPlain.isPlainName {model : Model} (h : model.IsPlain) {name : String}
    (hcore : model.core = token name) : IsPlainName name := by
  refine h name ?_
  rw [← occurrences_core, hcore]
  exact mem_singleton_self name

theorem mem_marks : ∀ {model : Model}, ∀ c ∈ model.marks, c ∈ ['?', '*', '+']
  | optional _, c, h | kleene _, c, h | plus _, c, h => by
    rcases mem_append.mp h with h | h
    · exact mem_marks c h
    · obtain rfl := mem_singleton.mp h
      decide
  | token _, _, h | sequence _, _, h | choice _, _, h | interleave _, _, h => nomatch h

theorem endsCore_marks_append (model : Model) {rest : List Char} (h : EndsCore rest) :
    EndsCore (model.marks ++ rest) := by
  intro c hc
  cases hmarks : model.marks with
  | nil =>
    rw [hmarks, nil_append] at hc
    exact h c hc
  | cons mark others =>
    rw [hmarks, cons_append, head?_cons, Option.mem_some_iff] at hc
    have hmark : mark ∈ ['?', '*', '+'] := mem_marks mark (hmarks ▸ mem_cons_self)
    exact subset_append_right [')', ',', '|'] ['?', '*', '+'] (hc ▸ hmark)

theorem endsCore_mark {mark : Char} (h : mark ∈ ['?', '*', '+']) (rest : List Char) :
    EndsCore (mark :: rest) := by
  rintro _ ⟨⟩
  exact subset_append_right [')', ',', '|'] ['?', '*', '+'] h

theorem core_eq_self_of_marks : ∀ {model : Model}, model.marks = [] → model.core = model
  | optional _, h | kleene _, h | plus _, h => absurd h (by simp [marks])
  | token _, _ | sequence _, _ | choice _, _ | interleave _, _ => rfl

/-- Models are written alike if their cores are and their marks are the same. -/
theorem exchanged_of_core : ∀ {model other : Model}, Exchanged model.core other.core →
    model.marks = other.marks → Exchanged model other
  | token _, _, h, hmarks | sequence _, _, h, hmarks | choice _, _, h, hmarks
  | interleave _, _, h, hmarks => by
    rwa [core_eq_self_of_marks hmarks.symm] at h
  | optional block, other, h, hmarks => by
    cases other with
    | optional block' => exact .optional (exchanged_of_core h (append_inj_left' hmarks rfl))
    | kleene block' | plus block' => exact absurd (append_inj_right' hmarks rfl) (by decide)
    | token | sequence | choice | interleave => exact absurd hmarks (by simp [marks])
  | kleene block, other, h, hmarks => by
    cases other with
    | kleene block' => exact .kleene (exchanged_of_core h (append_inj_left' hmarks rfl))
    | optional block' | plus block' => exact absurd (append_inj_right' hmarks rfl) (by decide)
    | token | sequence | choice | interleave => exact absurd hmarks (by simp [marks])
  | plus block, other, h, hmarks => by
    cases other with
    | plus block' => exact .plus (exchanged_of_core h (append_inj_left' hmarks rfl))
    | optional block' | kleene block' => exact absurd (append_inj_right' hmarks rfl) (by decide)
    | token | sequence | choice | interleave => exact absurd hmarks (by simp [marks])

/-- Where a block ends, its core and its marks are all of it. -/
theorem exchanged_of_append {model other : Model} {rest rest' : List Char} (hrest : EndsBlock rest)
    (hrest' : EndsBlock rest')
    (h : Exchanged model.core other.core ∧ model.marks ++ rest = other.marks ++ rest') :
    Exchanged model other ∧ rest = rest' := by
  have hends : ∀ {text : List Char}, EndsBlock text → ∀ c ∈ text.head?, c ∉ ['?', '*', '+'] := by
    intro text htext c hc
    have hmem := htext c hc
    simp only [mem_cons, not_mem_nil, or_false] at hmem
    rcases hmem with rfl | rfl | rfl <;> decide
  obtain ⟨hmarks, hsame⟩ :=
    append_inj_of_kind mem_marks mem_marks (hends hrest) (hends hrest') h.2
  exact ⟨exchanged_of_core h.1 hmarks, hsame⟩

/-! ### Lists -/

/-- The texts that stand between the blocks of a list. -/
def separators : List String := [",", "|", ", "]

/-- A list: how its blocks are separated, and what stands behind its closing parenthesis. -/
inductive IsList : Model → String → List Char → List Model → Prop
  /-- A sequence. -/
  | sequence (blocks : List Model) : IsList (sequence blocks) "," [] blocks
  /-- A choice. -/
  | choice (blocks : List Model) : IsList (choice blocks) "|" [] blocks
  /-- An unordered content. -/
  | interleave (blocks : List Model) : IsList (interleave blocks) ", " "[unordered]".toList blocks

theorem core_cases : ∀ model : Model, (∃ name, model.core = token name) ∨
    ∃ separator closing blocks, IsList model.core separator closing blocks
  | optional block | kleene block | plus block => core_cases block
  | token name => .inl ⟨name, rfl⟩
  | sequence blocks => .inr ⟨_, _, _, .sequence blocks⟩
  | choice blocks => .inr ⟨_, _, _, .choice blocks⟩
  | interleave blocks => .inr ⟨_, _, _, .interleave blocks⟩

section IsList

variable {model other : Model} {separator separator' : String} {closing closing' : List Char}
  {blocks others : List Model}

theorem IsList.toList_render (h : IsList model separator closing blocks) :
    model.render.toList = '(' :: ((renderAll separator blocks).toList ++ ')' :: closing) := by
  cases h <;> rw [render, String.toList_append, String.toList_append, append_assoc] <;> rfl

theorem IsList.occurrences_eq (h : IsList model separator closing blocks) :
    model.occurrences = occurrencesAll blocks := by
  cases h <;> rfl

theorem IsList.mem_separators (h : IsList model separator closing blocks) :
    separator ∈ separators := by
  cases h <;> decide

/-- Lists are written alike if their blocks are, and if their separators are the same where there
are any. -/
theorem IsList.exchanged (h : IsList model separator closing blocks)
    (h' : IsList other separator' closing' others) (hclosing : closing = closing')
    (hblocks : Forall₂ Exchanged blocks others)
    (hseparator : 2 ≤ blocks.length → separator = separator') : Exchanged model other := by
  have hshort : separator ≠ separator' → blocks.length ≤ 1 := fun hne =>
    Nat.le_of_not_lt fun hlong => hne (hseparator hlong)
  cases h with
  | sequence =>
    cases h' with
    | sequence => exact .sequence hblocks
    | choice => exact .sequence_choice (hshort (by decide)) hblocks
    | interleave => cases hclosing
  | choice =>
    cases h' with
    | sequence => exact .choice_sequence (hshort (by decide)) hblocks
    | choice => exact .choice hblocks
    | interleave => cases hclosing
  | interleave =>
    cases h' with
    | sequence | choice => cases hclosing
    | interleave => exact .interleave hblocks

/-- What stands behind a closing parenthesis is told from what may stand behind the list. -/
theorem IsList.closing_inj (h : IsList model separator closing blocks)
    (h' : IsList other separator' closing' others) {rest rest' : List Char} (hrest : EndsCore rest)
    (hrest' : EndsCore rest') (hsame : closing ++ rest = closing' ++ rest') :
    closing = closing' ∧ rest = rest' := by
  have hbracket : ∀ {text more : List Char}, EndsCore text → text ≠ '[' :: more := by
    rintro text more htext rfl
    exact absurd (htext '[' rfl) (by decide)
  have hcases : ∀ {model separator closing blocks}, IsList model separator closing blocks →
      closing = [] ∨ closing = '[' :: "unordered]".toList := by
    intro model separator closing blocks h
    cases h with
    | sequence | choice => exact .inl rfl
    | interleave => exact .inr rfl
  rcases hcases h with rfl | rfl <;> rcases hcases h' with rfl | rfl
  · exact ⟨rfl, hsame⟩
  · exact absurd hsame (hbracket hrest)
  · exact absurd hsame.symm (hbracket hrest')
  · exact ⟨rfl, append_cancel_left hsame⟩

end IsList

/-! ### Comparing written forms -/

/-- The written form of a model begins with a parenthesis or with a character of a token. -/
theorem exists_head_render {model : Model} (h : model.IsPlain) :
    ∃ c rest, model.render.toList = c :: rest ∧ (c = '(' ∨ c ∉ punctuation) := by
  rw [toList_render]
  rcases core_cases model with ⟨name, hcore⟩ | ⟨separator, closing, blocks, hcore⟩
  · obtain ⟨c, rest, htext, hc⟩ := (h.isPlainName hcore).exists_head
    rw [hcore]
    exact ⟨c, rest ++ model.marks, congrArg (· ++ model.marks) htext, .inr hc⟩
  · rw [hcore.toList_render]
    exact ⟨'(', _, rfl, .inl rfl⟩

theorem head?_renderAll {separator : String} {block : Model} {rest : List Model} (h : block.IsPlain)
    (more : List Char) :
    ∃ c, ((renderAll separator (block :: rest)).toList ++ more).head? = some c ∧
      (c = '(' ∨ c ∉ punctuation) := by
  obtain ⟨c, text, htext, hc⟩ := exists_head_render h
  refine ⟨c, ?_, hc⟩
  cases rest with
  | nil =>
    show (block.render.toList ++ more).head? = _
    rw [htext]
    rfl
  | cons next rest =>
    rw [renderAll_cons_cons, String.toList_append, String.toList_append, htext]
    rfl

/-- No punctuation but an opening parenthesis stands before a block. -/
theorem ne_of_mem_head?_renderAll {separator : String} {block : Model} {rest : List Model}
    (h : block.IsPlain) (more : List Char) {mark : Char} (hmark : mark ∈ punctuation)
    (hne : mark ≠ '(') :
    ∀ c ∈ ((renderAll separator (block :: rest)).toList ++ more).head?, c ≠ mark := by
  obtain ⟨c, hhead, hc⟩ := @head?_renderAll separator block rest h more
  rw [hhead]
  rintro _ ⟨⟩ rfl
  exact hc.elim hne fun hplain => hplain hmark

theorem ne_cons_of_head? {text more : List Char} {mark : Char} (h : ∀ c ∈ text.head?, c ≠ mark) :
    text ≠ mark :: more := by
  rintro rfl
  exact h mark rfl rfl

/-- No list ends before one of its blocks. -/
theorem renderAll_ne_closing {separator : String} {block : Model} {rest : List Model}
    (h : block.IsPlain) (more text : List Char) :
    (renderAll separator (block :: rest)).toList ++ more ≠ ')' :: text :=
  ne_cons_of_head? (ne_of_mem_head?_renderAll h more (by decide) (by decide))

/-- A block ends at a closing parenthesis. -/
theorem endsBlock_closing (rest : List Char) : EndsBlock (')' :: rest) := by
  rintro _ ⟨⟩
  decide

theorem head?_separator {separator : String} (h : separator ∈ separators) (rest : List Char) :
    ∀ c ∈ (separator.toList ++ rest).head?, c ∈ [',', '|'] := by
  simp only [separators, mem_cons, not_mem_nil, or_false] at h
  rcases h with rfl | rfl | rfl <;> rintro _ ⟨⟩ <;> decide

/-- A block ends at a separator. -/
theorem endsBlock_separator {separator : String} (h : separator ∈ separators) (rest : List Char) :
    EndsBlock (separator.toList ++ rest) := fun c hc =>
  mem_cons_of_mem _ (head?_separator h rest c hc)

/-- Where a list goes on it does not end. -/
theorem separator_ne_closing {separator : String} (h : separator ∈ separators)
    (rest rest' : List Char) : separator.toList ++ rest ≠ ')' :: rest' := by
  intro hsame
  exact absurd (head?_separator h rest ')' (congrArg head? hsame)) (by decide)

/-- Separators are told from each other by what stands behind them, which is no space. -/
theorem separator_inj {separator separator' : String} (h : separator ∈ separators)
    (h' : separator' ∈ separators) {rest rest' : List Char} (hrest : ∀ c ∈ rest.head?, c ≠ ' ')
    (hrest' : ∀ c ∈ rest'.head?, c ≠ ' ')
    (hsame : separator.toList ++ rest = separator'.toList ++ rest') :
    separator = separator' ∧ rest = rest' := by
  simp only [separators, mem_cons, not_mem_nil, or_false] at h h'
  rcases h with rfl | rfl | rfl <;> rcases h' with rfl | rfl | rfl
  · exact ⟨rfl, (cons.inj hsame).2⟩
  · exact absurd (cons.inj hsame).1 (by decide)
  · exact absurd (cons.inj hsame).2 (ne_cons_of_head? hrest)
  · exact absurd (cons.inj hsame).1 (by decide)
  · exact ⟨rfl, (cons.inj hsame).2⟩
  · exact absurd (cons.inj hsame).1 (by decide)
  · exact absurd (cons.inj hsame).2.symm (ne_cons_of_head? hrest')
  · exact absurd (cons.inj hsame).1 (by decide)
  · exact ⟨rfl, (cons.inj (cons.inj hsame).2).2⟩

/-- From the written form of some blocks it can be read how they are written, how they are separated
if there are several, and where they end. -/
def IsReadable (blocks : List Model) : Prop :=
  ∀ {others : List Model} {separator separator' : String} {rest rest' : List Char},
    ArePlain others → separator ∈ separators → separator' ∈ separators →
    (renderAll separator blocks).toList ++ ')' :: rest =
        (renderAll separator' others).toList ++ ')' :: rest' →
      Forall₂ Exchanged blocks others ∧ (2 ≤ blocks.length → separator = separator') ∧ rest = rest'

/-- The core of a list is read if its blocks are. -/
theorem exchanged_of_isList {model other : Model} {separator : String} {closing : List Char}
    {blocks : List Model} (h : IsList model separator closing blocks) (hblocks : IsReadable blocks)
    (hother : other.IsPlain) {rest rest' : List Char} (hrest : EndsCore rest)
    (hrest' : EndsCore rest') (hsame : model.render.toList ++ rest = other.render.toList ++ rest') :
    Exchanged model other.core ∧ rest = other.marks ++ rest' := by
  rw [toList_render other, append_assoc, h.toList_render] at hsame
  rcases core_cases other with ⟨name, hcore⟩ | ⟨separator', closing', others, hcore⟩
  · obtain ⟨c, text, htext, hc⟩ := (hother.isPlainName hcore).exists_head
    rw [hcore, render, htext] at hsame
    obtain rfl := (cons.inj hsame).1
    exact absurd hc (by decide)
  · rw [hcore.toList_render, cons_append, cons_append, append_assoc, append_assoc] at hsame
    have hplain : ArePlain others := by
      rw [ArePlain, ← hcore.occurrences_eq, occurrences_core]
      exact hother
    obtain ⟨hexchanged, hseparator, hclosing⟩ :=
      hblocks hplain h.mem_separators hcore.mem_separators (cons.inj hsame).2
    obtain ⟨hclosing, hrests⟩ :=
      h.closing_inj hcore hrest (endsCore_marks_append other hrest') hclosing
    exact ⟨h.exchanged hcore hclosing hexchanged hseparator, hrests⟩

mutual

/-- **The core of a model and where it ends** can be read from its written form. -/
theorem exchanged_core : ∀ {model other : Model}, model.IsPlain → other.IsPlain →
    ∀ {rest rest' : List Char}, EndsCore rest → EndsCore rest' →
      model.render.toList ++ rest = other.render.toList ++ rest' →
        Exchanged model.core other.core ∧ model.marks ++ rest = other.marks ++ rest'
  | token name, other, hmodel, hother, rest, rest', hrest, hrest', hsame => by
    have hname : IsPlainName name := hmodel name (mem_singleton_self name)
    have hkind : ∀ {text : List Char}, EndsCore text → ∀ c ∈ text.head?, ¬ c ∉ punctuation := by
      intro text htext c hc hplain
      have hmem := htext c hc
      have hsubset : [')', ',', '|', '?', '*', '+'] ⊆ punctuation := by decide
      exact hplain (hsubset hmem)
    have hmarks := endsCore_marks_append other hrest'
    rw [toList_render other, append_assoc, render] at hsame
    rcases core_cases other with ⟨name', hcore⟩ | ⟨separator, closing, blocks, hcore⟩
    · -- A name ends at the first character that no name has.
      have hname' := hother.isPlainName hcore
      rw [hcore] at hsame ⊢
      obtain ⟨hnames, hrests⟩ :=
        append_inj_of_kind hname.2 hname'.2 (hkind hrest) (hkind hmarks) hsame
      obtain rfl := String.toList_inj.mp hnames
      exact ⟨.token name, hrests⟩
    · obtain ⟨c, text, htext, hc⟩ := hname.exists_head
      rw [hcore.toList_render, htext] at hsame
      obtain rfl := (cons.inj hsame).1
      exact absurd hc (by decide)
  | sequence blocks, other, hmodel, hother, rest, rest', hrest, hrest', hsame =>
    exchanged_of_isList (.sequence blocks) (isReadable hmodel) hother hrest hrest' hsame
  | choice blocks, other, hmodel, hother, rest, rest', hrest, hrest', hsame =>
    exchanged_of_isList (.choice blocks) (isReadable hmodel) hother hrest hrest' hsame
  | interleave blocks, other, hmodel, hother, rest, rest', hrest, hrest', hsame =>
    exchanged_of_isList (.interleave blocks) (isReadable hmodel) hother hrest hrest' hsame
  | optional block, other, hmodel, hother, rest, rest', hrest, hrest', hsame => by
    -- The last mark is taken for what stands behind the block that it belongs to.
    rw [render, String.toList_append, append_assoc] at hsame
    rw [core, marks, append_assoc]
    have hmark : '?' ∈ ['?', '*', '+'] := by decide
    have hblock : block.IsPlain := hmodel
    exact exchanged_core hblock hother (endsCore_mark hmark rest) hrest' hsame
  | kleene block, other, hmodel, hother, rest, rest', hrest, hrest', hsame => by
    rw [render, String.toList_append, append_assoc] at hsame
    rw [core, marks, append_assoc]
    have hmark : '*' ∈ ['?', '*', '+'] := by decide
    have hblock : block.IsPlain := hmodel
    exact exchanged_core hblock hother (endsCore_mark hmark rest) hrest' hsame
  | plus block, other, hmodel, hother, rest, rest', hrest, hrest', hsame => by
    rw [render, String.toList_append, append_assoc] at hsame
    rw [core, marks, append_assoc]
    have hmark : '+' ∈ ['?', '*', '+'] := by decide
    have hblock : block.IsPlain := hmodel
    exact exchanged_core hblock hother (endsCore_mark hmark rest) hrest' hsame

/-- Blocks can be read one after the other. -/
theorem isReadable : ∀ {blocks : List Model}, ArePlain blocks → IsReadable blocks
  | [], _, others, separator, separator', rest, rest', hothers, hseparator, hseparator', hsame => by
    cases others with
    | nil => exact ⟨.nil, nofun, (cons.inj hsame).2⟩
    | cons other others =>
      exact absurd hsame.symm (renderAll_ne_closing (arePlain_cons.mp hothers).1 _ _)
  | [block], h, others, separator, separator', rest, rest', hothers, hseparator,
      hseparator', hsame => by
    have hblock := (arePlain_cons.mp h).1
    match others, hothers with
    | [], _ => exact absurd hsame (renderAll_ne_closing hblock _ _)
    | [other], hothers =>
      have hends := endsBlock_closing rest
      have hends' := endsBlock_closing rest'
      obtain ⟨hexchanged, hrests⟩ := exchanged_of_append hends hends'
        (exchanged_core hblock (arePlain_cons.mp hothers).1 hends.endsCore hends'.endsCore hsame)
      exact ⟨.cons hexchanged .nil, fun hlong => absurd hlong (Nat.lt_irrefl 1),
        (cons.inj hrests).2⟩
    | other :: next :: more, hothers =>
      rw [renderAll_cons_cons, String.toList_append, String.toList_append, append_assoc,
        append_assoc] at hsame
      have hends := endsBlock_closing rest
      have hends' := endsBlock_separator hseparator'
        ((renderAll separator' (next :: more)).toList ++ ')' :: rest')
      have hrests := (exchanged_of_append hends hends'
        (exchanged_core hblock (arePlain_cons.mp hothers).1 hends.endsCore hends'.endsCore hsame)).2
      exact absurd hrests.symm (separator_ne_closing hseparator' _ _)
  | block :: next :: blocks, h, others, separator, separator', rest, rest', hothers, hseparator,
      hseparator', hsame => by
    obtain ⟨hblock, hblocks⟩ := arePlain_cons.mp h
    match others, hothers with
    | [], _ => exact absurd hsame (renderAll_ne_closing hblock _ _)
    | [other], hothers =>
      rw [renderAll_cons_cons, String.toList_append, String.toList_append, append_assoc,
        append_assoc] at hsame
      -- After the first block, the one list goes on and the other one ends.
      have hends := endsBlock_separator hseparator
        ((renderAll separator (next :: blocks)).toList ++ ')' :: rest)
      have hends' := endsBlock_closing rest'
      have hrests := (exchanged_of_append hends hends'
        (exchanged_core hblock (arePlain_cons.mp hothers).1 hends.endsCore hends'.endsCore hsame)).2
      exact absurd hrests (separator_ne_closing hseparator _ _)
    | other :: next' :: more, hothers =>
      obtain ⟨hother, hmore⟩ := arePlain_cons.mp hothers
      rw [renderAll_cons_cons, renderAll_cons_cons, String.toList_append, String.toList_append,
        String.toList_append, String.toList_append, append_assoc, append_assoc, append_assoc,
        append_assoc] at hsame
      have hends := endsBlock_separator hseparator
        ((renderAll separator (next :: blocks)).toList ++ ')' :: rest)
      have hends' := endsBlock_separator hseparator'
        ((renderAll separator' (next' :: more)).toList ++ ')' :: rest')
      obtain ⟨hexchanged, hrests⟩ := exchanged_of_append hends hends'
        (exchanged_core hblock hother hends.endsCore hends'.endsCore hsame)
      have hspace : ' ' ∈ punctuation := by decide
      obtain ⟨rfl, htails⟩ := separator_inj hseparator hseparator'
        (ne_of_mem_head?_renderAll (arePlain_cons.mp hblocks).1 _ hspace (by decide))
        (ne_of_mem_head?_renderAll (arePlain_cons.mp hmore).1 _ hspace (by decide)) hrests
      obtain ⟨hexchangeds, -, hrest⟩ := isReadable hblocks hmore hseparator hseparator' htails
      exact ⟨.cons hexchanged hexchangeds, fun _ => rfl, hrest⟩

end

/-- **A content model is determined by its written form** if its tokens are plain names: models have
the same written form if and only if they differ only in lists of at most one block, which may be
sequences or choices. In particular they have the same language then. -/
theorem render_eq_iff_exchanged {model other : Model} (hmodel : model.IsPlain)
    (hother : other.IsPlain) : (model.render = other.render ↔ Exchanged model other) ∧
      (model.render = other.render → model.language = other.language) := by
  have hread : model.render = other.render → Exchanged model other := by
    intro hsame
    have hends : EndsBlock [] := nofun
    have htexts : model.render.toList ++ [] = other.render.toList ++ [] := by rw [hsame]
    exact (exchanged_of_append hends hends
      (exchanged_core hmodel hother hends.endsCore hends.endsCore htexts)).1
  exact ⟨⟨hread, Exchanged.render_eq⟩, fun hsame => (hread hsame).language_eq⟩

/-- A list of one block, once as a choice and once as a sequence, before an optional unordered
content. -/
theorem exchanged_para_of_render_eq :
    let unordered := optional (interleave [token "note", token "list"])
    let model := sequence [choice [token "para"], unordered]
    let other := sequence [sequence [token "para"], unordered]
    model.IsPlain ∧ other.IsPlain ∧ model.render = "((para),(note, list)[unordered]?)" ∧
      Exchanged model other ∧ model.language = other.language := by
  intro unordered model other
  have hnames : ∀ name ∈ ["para", "note", "list"], IsPlainName name := by
    simp [IsPlainName, punctuation]
  have hmodel : model.IsPlain := hnames
  have hother : other.IsPlain := hnames
  have htext : model.render = "((para),(note, list)[unordered]?)" := by
    simp [model, unordered, render, renderAll]
  have hsame : model.render = other.render := by
    simp [model, other, unordered, render, renderAll]
  obtain ⟨hiff, hlanguage⟩ := render_eq_iff_exchanged hmodel hother
  exact ⟨hmodel, hother, htext, hiff.mp hsame, hlanguage hsame⟩

end RelaxSchema.Model
