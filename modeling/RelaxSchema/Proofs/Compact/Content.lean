import RelaxSchema.Compact.Content
import RelaxSchema.Proofs.Compact.Literals

/-!
# Contents in the compact format

* `Model.exists_encode`: every content model can be written if the table holds its tokens;
* `Model.decode_encode`: reading gives back the model that was written;
* `Model.decode_eq_ok_iff_encode`: if no name is in the table twice, a value that is read is the one
  that would be written, and what is not `IsWritten` is refused: a rank out of range, a list of
  another length, an unknown operator, a list where one content is expected, or the other way round.
-/

namespace RelaxSchema.Model

open List

variable {table : List String}

/-! ### Writing -/

mutual

/-- Writing fails only for a token that the table does not hold. -/
theorem exists_encode : ∀ (model : Model), (∀ name ∈ model.occurrences, name ∈ table) →
    ∃ value, model.encode table = .ok value
  | token name, h => by
    obtain ⟨rank, hrank⟩ := exists_rankOf (h name (List.mem_singleton_self _))
    exact ⟨.nat rank, map_eq_ok_iff.mpr ⟨rank, hrank, rfl⟩⟩
  | sequence blocks, h | choice blocks, h | interleave blocks, h => by
    obtain ⟨items, hitems⟩ := exists_encodeAll blocks h
    exact ⟨_, bind_eq_ok_iff.mpr ⟨items, hitems, rfl⟩⟩
  | optional block, h | kleene block, h | plus block, h => by
    obtain ⟨value, hvalue⟩ := exists_encode block h
    exact ⟨_, map_eq_ok_iff.mpr ⟨value, hvalue, rfl⟩⟩

theorem exists_encodeAll : ∀ (blocks : List Model), (∀ name ∈ occurrencesAll blocks, name ∈ table) →
    ∃ items, encodeAll table blocks = .ok items
  | [], _ => ⟨[], rfl⟩
  | block :: rest, h => by
    obtain ⟨item, hitem⟩ := exists_encode block fun name hname =>
      h name (List.mem_append_left _ hname)
    obtain ⟨items, hitems⟩ := exists_encodeAll rest fun name hname =>
      h name (List.mem_append_right _ hname)
    exact ⟨item :: items,
      bind_eq_ok_iff.mpr ⟨item, hitem, bind_eq_ok_iff.mpr ⟨items, hitems, rfl⟩⟩⟩

end

/-! ### Reading -/

mutual

/-- **Reading undoes writing.** -/
theorem decode_encode : ∀ (model : Model) {value : Json}, model.encode table = .ok value →
    decode table value = .ok model
  | token name, value, h => by
    obtain ⟨rank, hrank, rfl⟩ := map_eq_ok_iff.mp h
    rw [Json.nat, decode, literalAt_of_rankOf hrank]
    rfl
  | sequence blocks, value, h | choice blocks, value, h | interleave blocks, value, h => by
    obtain ⟨items, hitems, hvalue⟩ := bind_eq_ok_iff.mp h
    obtain rfl := Except.ok.inj hvalue
    rw [applied, decode, decodeList, decodeAll_encodeAll blocks hitems]
    rfl
  | optional block, value, h | kleene block, value, h | plus block, value, h => by
    obtain ⟨item, hitem, rfl⟩ := map_eq_ok_iff.mp h
    rw [applied, decode, decode_encode block hitem]
    rfl

theorem decodeAll_encodeAll : ∀ (blocks : List Model) {items : List Json},
    encodeAll table blocks = .ok items → decodeAll table items = .ok blocks
  | [], items, h => by
    obtain rfl := Except.ok.inj h
    rfl
  | block :: rest, items, h => by
    obtain ⟨item, hitem, h⟩ := bind_eq_ok_iff.mp h
    obtain ⟨others, hothers, h⟩ := bind_eq_ok_iff.mp h
    obtain rfl := Except.ok.inj h
    rw [decodeAll, decode_encode block hitem, decodeAll_encodeAll rest hothers]
    rfl

end

/-! ### What is read -/

/-- A value that a content is written as, if the table has that many names. -/
inductive IsWritten (size : Nat) : Json → Prop
  /-- The rank of a name. -/
  | rank {rank : Nat} : rank < size → IsWritten size (.nat rank)
  /-- An operator on a list of contents. -/
  | list {operator : String} {items : List Json} : operator ∈ [",", "|", "~"] →
      (∀ item ∈ items, IsWritten size item) → IsWritten size (applied operator (.array items))
  /-- An operator on one content. -/
  | single {operator : String} {payload : Json} : operator ∈ ["?", "*", "+"] →
      IsWritten size payload → IsWritten size (applied operator payload)

theorem decodeList_eq_ok_iff {value : Json} {blocks : List Model} :
    decodeList table value = .ok blocks ↔
      ∃ items, value = .array items ∧ decodeAll table items = .ok blocks := by
  cases value <;> simp [decodeList]

/-- The only values that are read as a model. -/
theorem decode_eq_ok_iff {value : Json} {model : Model} : decode table value = .ok model ↔
    match model with
    | token name => ∃ rank, value = .nat rank ∧ literalAt table rank = .ok name
    | sequence blocks =>
      ∃ items, value = applied "," (.array items) ∧ decodeAll table items = .ok blocks
    | choice blocks => ∃ items, value = applied "|" (.array items) ∧
        decodeAll table items = .ok blocks
    | interleave blocks =>
      ∃ items, value = applied "~" (.array items) ∧ decodeAll table items = .ok blocks
    | optional block => ∃ payload, value = applied "?" payload ∧ decode table payload = .ok block
    | kleene block => ∃ payload, value = applied "*" payload ∧ decode table payload = .ok block
    | plus block => ∃ payload, value = applied "+" payload ∧ decode table payload = .ok block := by
  constructor
  · intro h
    unfold decode at h
    split at h
    · obtain ⟨name, hname, rfl⟩ := map_eq_ok_iff.mp h
      exact ⟨_, rfl, hname⟩
    · cases h
    · rename_i operator payload
      split at h
      -- Operators on a list, and those on one content.
      iterate 3
        · obtain ⟨blocks, hblocks, rfl⟩ := map_eq_ok_iff.mp h
          obtain ⟨items, rfl, hitems⟩ := decodeList_eq_ok_iff.mp hblocks
          exact ⟨items, rfl, hitems⟩
      iterate 3
        · obtain ⟨block, hblock, rfl⟩ := map_eq_ok_iff.mp h
          exact ⟨payload, rfl, hblock⟩
      · cases h
    · cases h
  · intro h
    cases model with
    | token name =>
      obtain ⟨rank, rfl, hrank⟩ := h
      rw [Json.nat, decode, hrank]
      rfl
    | sequence blocks | choice blocks | interleave blocks =>
      obtain ⟨items, rfl, hitems⟩ := h
      rw [applied, decode, decodeList, hitems]
      rfl
    | optional block | kleene block | plus block =>
      obtain ⟨payload, rfl, hpayload⟩ := h
      rw [applied, decode, hpayload]
      rfl

mutual

/-- **Writing undoes reading**, if no name is in the table twice. -/
theorem encode_of_decode (hnodup : table.Nodup) : ∀ (model : Model) {value : Json},
    decode table value = .ok model → model.encode table = .ok value
  | token name, value, h => by
    obtain ⟨rank, rfl, hrank⟩ := decode_eq_ok_iff.mp h
    exact map_eq_ok_iff.mpr ⟨rank, rankOf_of_literalAt hnodup hrank, rfl⟩
  | sequence blocks, value, h | choice blocks, value, h | interleave blocks, value, h => by
    obtain ⟨items, rfl, hitems⟩ := decode_eq_ok_iff.mp h
    exact bind_eq_ok_iff.mpr ⟨items, encodeAll_of_decodeAll hnodup blocks hitems, rfl⟩
  | optional block, value, h | kleene block, value, h | plus block, value, h => by
    obtain ⟨payload, rfl, hpayload⟩ := decode_eq_ok_iff.mp h
    exact map_eq_ok_iff.mpr ⟨payload, encode_of_decode hnodup block hpayload, rfl⟩

theorem encodeAll_of_decodeAll (hnodup : table.Nodup) : ∀ (blocks : List Model) {items : List Json},
    decodeAll table items = .ok blocks → encodeAll table blocks = .ok items
  | [], [], _ => rfl
  | [], item :: rest, h => by
    obtain ⟨block, -, h⟩ := bind_eq_ok_iff.mp h
    obtain ⟨blocks, -, h⟩ := bind_eq_ok_iff.mp h
    cases h
  | block :: blocks, [], h => nomatch h
  | block :: blocks, item :: rest, h => by
    obtain ⟨first, hfirst, h⟩ := bind_eq_ok_iff.mp h
    obtain ⟨others, hothers, h⟩ := bind_eq_ok_iff.mp h
    obtain ⟨rfl, rfl⟩ := cons.inj (Except.ok.inj h)
    exact bind_eq_ok_iff.mpr ⟨item, encode_of_decode hnodup first hfirst,
      bind_eq_ok_iff.mpr ⟨rest, encodeAll_of_decodeAll hnodup others hothers, rfl⟩⟩

end

mutual

theorem isWritten_of_decode : ∀ (model : Model) {value : Json}, decode table value = .ok model →
    IsWritten table.length value
  | token name, value, h => by
    obtain ⟨rank, rfl, hrank⟩ := decode_eq_ok_iff.mp h
    exact .rank (exists_literalAt_iff.mp ⟨name, hrank⟩)
  | sequence blocks, value, h | choice blocks, value, h | interleave blocks, value, h => by
    obtain ⟨items, rfl, hitems⟩ := decode_eq_ok_iff.mp h
    exact .list (by simp) (forall_isWritten_of_decodeAll blocks hitems)
  | optional block, value, h | kleene block, value, h | plus block, value, h => by
    obtain ⟨payload, rfl, hpayload⟩ := decode_eq_ok_iff.mp h
    exact .single (by simp) (isWritten_of_decode block hpayload)

theorem forall_isWritten_of_decodeAll : ∀ (blocks : List Model) {items : List Json},
    decodeAll table items = .ok blocks → ∀ item ∈ items, IsWritten table.length item
  | _, [], _ => fun _ hitem => absurd hitem not_mem_nil
  | [], item :: rest, h => by
    obtain ⟨block, -, h⟩ := bind_eq_ok_iff.mp h
    obtain ⟨blocks, -, h⟩ := bind_eq_ok_iff.mp h
    cases h
  | block :: blocks, item :: rest, h => by
    obtain ⟨first, hfirst, h⟩ := bind_eq_ok_iff.mp h
    obtain ⟨others, hothers, h⟩ := bind_eq_ok_iff.mp h
    obtain ⟨rfl, rfl⟩ := cons.inj (Except.ok.inj h)
    exact forall_mem_cons.mpr ⟨isWritten_of_decode first hfirst,
      forall_isWritten_of_decodeAll others hothers⟩

end

theorem exists_decodeAll {items : List Json}
    (h : ∀ item ∈ items, ∃ block, decode table item = .ok block) :
    ∃ blocks, decodeAll table items = .ok blocks := by
  induction items with
  | nil => exact ⟨[], rfl⟩
  | cons item rest ih =>
    obtain ⟨hitem, hrest⟩ := forall_mem_cons.mp h
    obtain ⟨block, hblock⟩ := hitem
    obtain ⟨blocks, hblocks⟩ := ih hrest
    exact ⟨block :: blocks,
      bind_eq_ok_iff.mpr ⟨block, hblock, bind_eq_ok_iff.mpr ⟨blocks, hblocks, rfl⟩⟩⟩

theorem IsWritten.exists_decode {value : Json} (h : IsWritten table.length value) :
    ∃ model, decode table value = .ok model := by
  induction h with
  | rank hrank =>
    obtain ⟨name, hname⟩ := exists_literalAt_iff.mpr hrank
    exact ⟨token name, decode_eq_ok_iff.mpr ⟨_, rfl, hname⟩⟩
  | list hoperator _ ih =>
    obtain ⟨blocks, hblocks⟩ := exists_decodeAll ih
    simp only [mem_cons, not_mem_nil, or_false] at hoperator
    obtain rfl | rfl | rfl := hoperator
    · exact ⟨sequence blocks, decode_eq_ok_iff.mpr ⟨_, rfl, hblocks⟩⟩
    · exact ⟨choice blocks, decode_eq_ok_iff.mpr ⟨_, rfl, hblocks⟩⟩
    · exact ⟨interleave blocks, decode_eq_ok_iff.mpr ⟨_, rfl, hblocks⟩⟩
  | single hoperator _ ih =>
    obtain ⟨block, hblock⟩ := ih
    simp only [mem_cons, not_mem_nil, or_false] at hoperator
    obtain rfl | rfl | rfl := hoperator
    · exact ⟨optional block, decode_eq_ok_iff.mpr ⟨_, rfl, hblock⟩⟩
    · exact ⟨kleene block, decode_eq_ok_iff.mpr ⟨_, rfl, hblock⟩⟩
    · exact ⟨plus block, decode_eq_ok_iff.mpr ⟨_, rfl, hblock⟩⟩

/-- Whatever is refused is refused as a fault of the compact format. -/
theorem exists_fault_of_decode {value : Json} {error : Error}
    (h : decode table value = .error error) : ∃ fault, error = .compact fault := by
  suffices hall : ∀ value error, decode table value = .error error →
      ∃ fault, error = .compact fault from
    hall value error h
  refine (decode.mutual_induct
    (fun value => ∀ error, decode table value = .error error → ∃ fault, error = .compact fault)
    (fun value => ∀ error, decodeList table value = .error error → ∃ fault, error = .compact fault)
    (fun items => ∀ error, decodeAll table items = .error error → ∃ fault, error = .compact fault)
    ?rank ?number ?sequence ?choice ?interleave ?optional ?kleene ?plus ?operator ?value ?list
    ?noList ?nil ?cons).1
  case rank =>
    intro rank error h
    rw [decode, map_eq_error_iff, literalAt] at h
    split at h
    · cases h
    · exact ⟨_, (Except.error.inj h).symm⟩
  case number =>
    intro number hnumber error h
    rw [decode] at h
    · exact ⟨_, (Except.error.inj h).symm⟩
    · exact hnumber
  case sequence | choice | interleave | optional | kleene | plus =>
    intro payload ih error h
    rw [decode, map_eq_error_iff] at h
    exact ih error h
  case operator =>
    intro payload operator hsequence hchoice hinterleave hoptional hkleene hplus error h
    rw [decode] at h
    · exact ⟨_, (Except.error.inj h).symm⟩
    all_goals assumption
  case value =>
    intro value hrank hnumber happlied error h
    rw [decode] at h
    · exact ⟨_, (Except.error.inj h).symm⟩
    all_goals assumption
  case list =>
    intro items ih error h
    exact ih error h
  case noList =>
    intro value hlist error h
    rw [decodeList] at h
    · exact ⟨_, (Except.error.inj h).symm⟩
    · exact hlist
  case nil =>
    intro error h
    cases h
  case cons =>
    intro item rest ihitem ihrest error h
    rcases bind_eq_error_iff.mp h with h | ⟨block, -, h⟩
    · exact ihitem error h
    rcases bind_eq_error_iff.mp h with h | ⟨blocks, -, h⟩
    · exact ihrest error h
    · cases h

/-- **Reading accepts exactly what writing produces**, if no name is in the table twice: every
content whose tokens are in the table is read back, a value that is read is the only one for its
content, and is what would be written for it. The values that are read are those that are made of
ranks in range, of operators on a list of such values and of operators on one of them. All others
are faults of the compact format. -/
theorem decode_eq_ok_iff_encode (hnodup : table.Nodup) :
    (∀ value model, decode table value = .ok model ↔ model.encode table = .ok value) ∧
    (∀ model, (∀ name ∈ model.occurrences, name ∈ table) →
      ∃ value, model.encode table = .ok value ∧ decode table value = .ok model) ∧
    (∀ value other model, decode table value = .ok model → decode table other = .ok model →
      value = other) ∧
    (∀ value, (∃ model, decode table value = .ok model) ↔ IsWritten table.length value) ∧
    ∀ value, ¬ IsWritten table.length value →
      ∃ fault, decode table value = .error (.compact fault) := by
  have hread : ∀ value model, decode table value = .ok model ↔ model.encode table = .ok value :=
    fun value model => ⟨encode_of_decode hnodup model, decode_encode model⟩
  refine ⟨hread, fun model hnames => ?_, fun value other model h h' => ?_, fun value => ?_,
    fun value hvalue => ?_⟩
  · obtain ⟨value, hvalue⟩ := exists_encode model hnames
    exact ⟨value, hvalue, (hread value model).mpr hvalue⟩
  · exact Except.ok.inj (((hread value model).mp h).symm.trans ((hread other model).mp h'))
  · exact ⟨fun ⟨model, hmodel⟩ => isWritten_of_decode model hmodel, IsWritten.exists_decode⟩
  · cases hdecode : decode table value with
    | ok model => exact absurd (isWritten_of_decode model hdecode) hvalue
    | error error =>
      obtain ⟨fault, rfl⟩ := exists_fault_of_decode hdecode
      exact ⟨fault, rfl⟩

/-- Values that are read, and two that are refused below the operators. -/
theorem decode_eq_ok_iff_encode_nested :
    ["a", "b"].Nodup ∧
    (∀ model, decode ["a", "b"] (applied "," (.array [.nat 1, applied "*" (.nat 0)])) = .ok model ↔
      model.encode ["a", "b"] = .ok (applied "," (.array [.nat 1, applied "*" (.nat 0)]))) ∧
    (∃ model, decode ["a", "b"] (applied "," (.array [.nat 1, applied "*" (.nat 0)])) = .ok model) ∧
    (∃ fault, decode ["a", "b"] (applied "?" (applied "|" (.nat 0))) = .error (.compact fault)) ∧
    ∃ fault, decode ["a", "b"] (applied "~" (.array [.nat 0, .nat 2])) =
      .error (.compact fault) := by
  have hnodup : ["a", "b"].Nodup := by decide
  obtain ⟨hread, -, -, hwritten, hrefused⟩ := decode_eq_ok_iff_encode hnodup
  refine ⟨hnodup, hread _, (hwritten _).mpr ?_, hrefused _ ?_, hrefused _ ?_⟩
  · refine .list (by simp) (forall_mem_cons.mpr ⟨.rank (by decide), ?_⟩)
    exact forall_mem_cons.mpr ⟨.single (by simp) (.rank (by decide)), fun _ h =>
      absurd h not_mem_nil⟩
  · rw [← hwritten]
    rintro ⟨model, hmodel⟩
    cases hmodel
  · rw [← hwritten]
    rintro ⟨model, hmodel⟩
    cases hmodel

end RelaxSchema.Model
