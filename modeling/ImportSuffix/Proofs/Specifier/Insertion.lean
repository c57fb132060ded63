import ImportSuffix.Proofs.Specifier.FixedPoint

/-!
What any list of rules can do to a text.

All that is ever added is the extension, behind relative specifiers that lack it.  Each
rule reads what the rules before it left, but a segment that has got the extension ends
in it, and no rule extends it again.
-/

namespace ImportSuffix.Specifier

open Text

namespace Cut

theorem quotes_push (char : Char) (cut : Cut) : (cut.push char).quotes = cut.quotes := by
  cases cut <;> rfl

theorem quotes_ofText (text : List Char) : (ofText text).quotes = text.filter isQuote := by
  induction text with
  | nil => rfl
  | cons char rest inductionHypothesis =>
      unfold ofText
      split
      next quoted => simp [quotes, quoted, inductionHypothesis]
      next unquoted => simp [quotes_push, unquoted, inductionHypothesis]

theorem length_quotes (cut : Cut) : cut.quotes.length = cut.size := by
  induction cut with
  | last segment => rfl
  | next segment quote rest inductionHypothesis => simp [quotes, inductionHypothesis]

/-- A cut consists of its quotes and its segments. -/
theorem eq_of_quotes_of_segments {first second : Cut} (quotes : first.quotes = second.quotes)
    (segments : ∀ index, first.segment index = second.segment index) : first = second := by
  induction first generalizing second with
  | last segment =>
      cases second with
      | last other => exact congrArg last (segments 0)
      | next other quote rest => cases quotes
  | next segment quote rest inductionHypothesis =>
      cases second with
      | last other => cases quotes
      | next other otherQuote otherRest =>
          obtain ⟨sameQuote, sameQuotes⟩ := List.cons.inj quotes
          have sameRest := inductionHypothesis sameQuotes fun index => segments (index + 1)
          rw [show segment = other from segments 0, sameQuote, sameRest]

/-- A segment behind which an extension may be added: it stands between two quotes, is a
relative specifier in one line, and does not end in the extension. -/
structure Extendable (extension : List Char) (cut : Cut) (index : Nat) : Prop where
  notFirst : 0 < index
  notLast : index < cut.size
  relative : "./".toList <+: cut.segment index
  length : 3 ≤ (cut.segment index).length
  oneLine : '\n' ∉ cut.segment index
  lacking : ¬extension <:+ cut.segment index

/-- The quotes stay, and so do the segments, but for the extension behind some of them. -/
structure ExtendedFrom (extension : List Char) (before after : Cut) : Prop where
  quotes : after.quotes = before.quotes
  segments : ∀ index, after.segment index = before.segment index ∨
    after.segment index = before.segment index ++ extension ∧ Extendable extension before index

/-- Take the extension away from the segments that differ from an earlier cut. -/
def withdraw (extension : List Char) (before after : Cut) : Cut :=
  after.mapSegments fun index segment =>
    if segment = before.segment index then segment
    else segment.take (segment.length - extension.length)

theorem ExtendedFrom.size {extension : List Char} {before after : Cut}
    (extended : ExtendedFrom extension before after) : after.size = before.size := by
  rw [← length_quotes, extended.quotes, length_quotes]

/-- What was added can be taken away again. -/
theorem ExtendedFrom.withdraw_eq {extension : List Char} {before after : Cut}
    (extended : ExtendedFrom extension before after) :
    withdraw extension before after = before := by
  apply eq_of_quotes_of_segments
  · rw [withdraw, quotes_mapSegments, extended.quotes]
  · intro index
    rcases Nat.lt_or_ge after.size index with behind | inside
    · rw [segment_eq_nil_of_size_lt (by simpa [withdraw] using behind),
        segment_eq_nil_of_size_lt (extended.size ▸ behind)]
    · rw [withdraw, segment_mapSegments _ inside]
      rcases extended.segments index with same | ⟨added, _⟩
      · rw [if_pos same, same]
      · rw [added]
        split
        next same => exact same
        next => simp

theorem extendable_of_selected {rule : Rule} {extension : List Char} {cut : Cut} {index : Nat}
    (selected : rule.Selected cut index) (lacking : ¬extension <:+ cut.segment index) :
    Extendable extension cut index := by
  have body := selected.candidate.body
  obtain ⟨relative, length, _⟩ := Rule.body_iff.mp body
  refine ⟨Nat.pos_of_ne_zero ?_, selected.candidate.lt_size, relative, length,
    body.lineFeed_not_mem, lacking⟩
  rintro rfl
  exact selected

/-- A rule extends what it finds, and nothing for the second time. -/
theorem ExtendedFrom.extend {extension : List Char} {before after : Cut}
    (extended : ExtendedFrom extension before after) (rule : Rule) :
    ExtendedFrom extension before (after.extend rule extension) := by
  refine ⟨by rw [quotes_extend, extended.quotes], ?_⟩
  intro index
  by_cases selected : rule.Selected after index
  · rw [segment_extend_of_selected selected]
    rcases extended.segments index with same | ⟨added, extendable⟩
    · by_cases ends : extension <:+ after.segment index
      · rw [extend_of_suffix ends]
        exact .inl same
      · have extendable := extendable_of_selected selected ends
        rw [Rule.extend_eq_append, if_pos ends, same]
        exact .inr ⟨rfl, extendable.notFirst, extended.size ▸ extendable.notLast,
          same ▸ extendable.relative, same ▸ extendable.length, same ▸ extendable.oneLine,
          same ▸ extendable.lacking⟩
    · rw [extend_of_suffix (added ▸ List.suffix_append _ _)]
      exact .inr ⟨added, extendable⟩
  · rw [segment_extend_of_not_selected selected]
    exact extended.segments index

end Cut

theorem applyRules_extendedFrom {extension : List Char} (unquoted : Unquoted extension)
    (rules : List Rule) {before : Cut} {text : List Char}
    (extended : Cut.ExtendedFrom extension before (Cut.ofText text)) :
    Cut.ExtendedFrom extension before (Cut.ofText (applyRules extension rules text).1) := by
  induction rules generalizing text with
  | nil => exact extended
  | cons rule rules inductionHypothesis =>
      rw [applyRules_cons]
      apply inductionHypothesis
      rw [Cut.ofText_extend rule unquoted]
      exact extended.extend rule

/-- What rules may do to a text: they insert the extension behind some specifiers, once
behind each, so that the text is found again where it is taken away. -/
structure Insertion (extension before after : List Char) : Prop where
  quotes : after.filter isQuote = before.filter isQuote
  segments : ∀ index,
    (Cut.ofText after).segment index = (Cut.ofText before).segment index ∨
      (Cut.ofText after).segment index = (Cut.ofText before).segment index ++ extension ∧
        Cut.Extendable extension (Cut.ofText before) index
  foreign : ∀ index, ¬"./".toList <+: (Cut.ofText before).segment index →
    (Cut.ofText after).segment index = (Cut.ofText before).segment index
  withdrawn : (Cut.withdraw extension (Cut.ofText before) (Cut.ofText after)).text = before

theorem Extender.apply_insertion (extender : Extender)
    (unquoted : ∀ char ∈ extender.extension.toList, isQuote char = false) (text : String) :
    Insertion extender.extension.toList text.toList (extender.apply text).text.toList := by
  have extended : Cut.ExtendedFrom extender.extension.toList (Cut.ofText text.toList)
      (Cut.ofText (extender.apply text).text.toList) := by
    rw [Extender.apply, String.toList_ofList]
    exact applyRules_extendedFrom unquoted extender.rules ⟨rfl, fun _ => .inl rfl⟩
  refine ⟨?_, extended.segments, ?_, ?_⟩
  · rw [← Cut.quotes_ofText, ← Cut.quotes_ofText, extended.quotes]
  · intro index foreign
    rcases extended.segments index with same | ⟨_, extendable⟩
    · exact same
    · exact absurd extendable.relative foreign
  · rw [extended.withdraw_eq, Cut.text_ofText]

/-- The first rule is applied again behind the second one, to texts that begin where the
extension ends. -/
theorem Extender.apply_insertion_repeated :
    (∀ char ∈ ".js;from ".toList, isQuote char = false) ∧
      ((Extender.mk [.importFrom, .requireCall, .importFrom] ".js;from ").apply
        "from './a'./b'require('./c')").text =
          "from './a.js;from './b.js;from 'require('./c.js;from ')" ∧
      Insertion ".js;from ".toList "from './a'./b'require('./c')".toList
        ((Extender.mk [.importFrom, .requireCall, .importFrom] ".js;from ").apply
          "from './a'./b'require('./c')").text.toList := by
  have unquoted : ∀ char ∈ ".js;from ".toList, isQuote char = false := by
    simp [isQuote]
  exact ⟨unquoted, by decide +kernel, Extender.apply_insertion
    ⟨[.importFrom, .requireCall, .importFrom], ".js;from "⟩ unquoted _⟩

end ImportSuffix.Specifier
