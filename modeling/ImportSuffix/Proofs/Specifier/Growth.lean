import ImportSuffix.Proofs.Specifier.FixedPoint

/-!
Texts grow, or stay as they are.

A rule only inserts characters, so what one rule has added no later rule takes away.  A text
therefore changes exactly if some rule finds a specifier without the extension in the text as
it is given: the rules before the first such rule leave the text to it unchanged.
-/

namespace ImportSuffix.Specifier

theorem length_lt_of_sublist_of_ne {before after : List Char} (kept : before.Sublist after)
    (changed : after ≠ before) : before.length < after.length := by
  apply Nat.lt_of_not_le
  intro short
  exact changed (kept.eq_of_length_le short).symm

theorem sublist_extend (extension specifier : List Char) :
    specifier.Sublist (extend extension specifier) := by
  unfold extend
  split
  next => exact List.Sublist.refl _
  next => exact List.sublist_append_left _ _

theorem extend_eq_self_iff {extension specifier : List Char} :
    extend extension specifier = specifier ↔ extension <:+ specifier := by
  constructor
  · intro same
    rw [← same]
    exact suffix_extend _ _
  · exact extend_of_suffix

namespace Piece

theorem text_sublist_extend (extension : List Char) (piece : Piece) :
    piece.text.Sublist (piece.extend extension) := by
  cases piece with
  | plain char => exact List.Sublist.refl _
  | found reading =>
      have inserted := sublist_extend extension reading.specifier
      have headKept := (List.Sublist.refl reading.head).append inserted
      exact headKept.append (List.Sublist.refl reading.tail)

/-- A piece stays as it is, unless it has a specifier that lacks the extension. -/
theorem extend_eq_text_iff {extension : List Char} {piece : Piece} :
    piece.extend extension = piece.text ↔
      ∀ reading, piece = found reading → extension <:+ reading.specifier := by
  cases piece with
  | plain char => simp [extend, text]
  | found reading =>
      simp only [extend, text, Reading.extend, Reading.text, List.append_cancel_right_eq,
        List.append_cancel_left_eq, extend_eq_self_iff, found.injEq, forall_eq']

variable {extension : List Char} {pieces : List Piece}

theorem flatMap_text_sublist_extend (extension : List Char) (pieces : List Piece) :
    (pieces.flatMap text).Sublist (pieces.flatMap (extend extension)) := by
  induction pieces with
  | nil => exact List.Sublist.refl _
  | cons piece rest inductionHypothesis =>
      rw [List.flatMap_cons, List.flatMap_cons]
      exact (piece.text_sublist_extend extension).append inductionHypothesis

/-- No piece makes up for another one: the whole stays only if every piece does. -/
theorem flatMap_extend_eq_iff :
    pieces.flatMap (extend extension) = pieces.flatMap text ↔
      ∀ piece ∈ pieces, piece.extend extension = piece.text := by
  induction pieces with
  | nil => simp
  | cons piece rest inductionHypothesis =>
      rw [List.flatMap_cons, List.flatMap_cons, List.forall_mem_cons, ← inductionHypothesis]
      constructor
      · intro same
        have longer := (piece.text_sublist_extend extension).length_le
        have longerRest := (flatMap_text_sublist_extend extension rest).length_le
        have lengths := congrArg List.length same
        rw [List.length_append, List.length_append] at lengths
        exact List.append_inj same (by omega)
      · rintro ⟨samePiece, sameRest⟩
        rw [samePiece, sameRest]

end Piece

namespace Rule

/-- Somewhere in the text, the rule finds a specifier that does not end in the extension. -/
def FindsUnextended (rule : Rule) (extension text : List Char) : Prop :=
  ∃ reading ∈ rule.readings text, ¬extension <:+ reading.specifier

theorem text_sublist_extend (rule : Rule) (extension text : List Char) :
    text.Sublist (rule.extend extension text) := by
  have inserted := Piece.flatMap_text_sublist_extend extension (rule.pieces text)
  rwa [flatMap_text_pieces] at inserted

theorem length_lt_extend (rule : Rule) {extension text : List Char}
    (changed : rule.extend extension text ≠ text) :
    text.length < (rule.extend extension text).length :=
  length_lt_of_sublist_of_ne (rule.text_sublist_extend extension text) changed

theorem extend_ne_iff {rule : Rule} {extension text : List Char} :
    rule.extend extension text ≠ text ↔ rule.FindsUnextended extension text := by
  have unchanged : rule.extend extension text = text ↔
      ∀ piece ∈ rule.pieces text, piece.extend extension = piece.text := by
    rw [← Piece.flatMap_extend_eq_iff, flatMap_text_pieces]
    rfl
  rw [ne_eq, unchanged, FindsUnextended]
  simp only [mem_readings_iff, Piece.extend_eq_text_iff, not_forall]
  constructor
  · rintro ⟨_, membership, reading, rfl, lacking⟩
    exact ⟨reading, membership, lacking⟩
  · rintro ⟨reading, membership, lacking⟩
    exact ⟨.found reading, membership, reading, rfl, lacking⟩

theorem occursIn_iff_readings_ne_nil {rule : Rule} {text : List Char} :
    rule.occursIn text = true ↔ rule.readings text ≠ [] := by
  simp [occursIn]

end Rule

section

variable {extension text : List Char} {rules : List Rule}

/-- What any rules leave of a text still holds the text. -/
theorem text_sublist_applyRules (extension : List Char) (rules : List Rule) (text : List Char) :
    text.Sublist (applyRules extension rules text).1 := by
  induction rules generalizing text with
  | nil => exact List.Sublist.refl _
  | cons rule rules inductionHypothesis =>
      rw [applyRules_cons]
      exact (rule.text_sublist_extend extension text).trans (inductionHypothesis _)

/-- More rules behind others take away nothing of what these have added. -/
theorem applyRules_sublist_append (extension : List Char) (rules more : List Rule)
    (text : List Char) :
    (applyRules extension rules text).1.Sublist (applyRules extension (rules ++ more) text).1 := by
  rw [applyRules_fst extension (rules ++ more), List.foldl_append, ← applyRules_fst,
    ← applyRules_fst]
  exact text_sublist_applyRules extension more _

theorem length_lt_applyRules (changed : (applyRules extension rules text).1 ≠ text) :
    text.length < (applyRules extension rules text).1.length :=
  length_lt_of_sublist_of_ne (text_sublist_applyRules extension rules text) changed

theorem applyRules_fst_ne_iff :
    (applyRules extension rules text).1 ≠ text ↔
      ∃ rule ∈ rules, rule.FindsUnextended extension text := by
  induction rules with
  | nil => simp [applyRules]
  | cons rule rules inductionHypothesis =>
      simp only [applyRules_cons, List.mem_cons, exists_eq_or_imp]
      by_cases changed : rule.extend extension text = text
      · have unfound : ¬rule.FindsUnextended extension text := fun found =>
          Rule.extend_ne_iff.mpr found changed
        rw [changed, inductionHypothesis]
        simp only [unfound, false_or]
      · -- Every later text is at least as long as the first one that has grown.
        have grown := rule.length_lt_extend changed
        have kept := (text_sublist_applyRules extension rules
          (rule.extend extension text)).length_le
        refine iff_of_true ?_ (.inl (Rule.extend_ne_iff.mp changed))
        intro same
        rw [same] at kept
        omega

/-- The first rule whose form occurs in what it is given finds it in the first text. -/
theorem applyRules_snd_ne_nil_iff :
    (applyRules extension rules text).2 ≠ [] ↔ ∃ rule ∈ rules, rule.readings text ≠ [] := by
  induction rules with
  | nil => simp [applyRules]
  | cons rule rules inductionHypothesis =>
      simp only [applyRules_cons, List.mem_cons, exists_eq_or_imp]
      cases occurs : rule.occursIn text with
      | false =>
          have unread : ¬rule.readings text ≠ [] := by
            rw [← Rule.occursIn_iff_readings_ne_nil, occurs]
            exact Bool.false_ne_true
          rw [Rule.extend_of_not_occursIn occurs]
          simpa [unread] using inductionHypothesis
      | true => exact iff_of_true (by simp) (.inl (Rule.occursIn_iff_readings_ne_nil.mp occurs))

theorem applyRules_fst_of_snd_eq_nil (unmatched : (applyRules extension rules text).2 = []) :
    (applyRules extension rules text).1 = text := by
  apply Decidable.byContradiction
  intro changed
  obtain ⟨rule, membership, reading, found, _⟩ := applyRules_fst_ne_iff.mp changed
  exact applyRules_snd_ne_nil_iff.mpr ⟨rule, membership, List.ne_nil_of_mem found⟩ unmatched

end

end ImportSuffix.Specifier
