import Plc.Proofs.Lexical.Tiling

/-!
What is read as tokens is what is tiled by them, so that a text has one tiling or none, and is cut
into tokens exactly if it has one.
-/

namespace Plc.Lexical

variable {offset : Nat} {text cs : List Char} {t : Token} {ts : List Token} {c : Char}

structure TilingFrom (offset : Nat) (cs : List Char) (ts : List Token) : Prop where
  increasing : ts.Pairwise fun a b => a.offset < b.offset ∧ a.stop ≤ b.offset
  placed : ∀ t ∈ ts, offset ≤ t.offset ∧
    Longest (cs.drop (t.offset - offset)) t.kind t.text.toList ∧
    ¬ LeadingZeros (cs.drop (t.offset - offset))
  blank : ∀ (i : Nat) (c : Char), cs[i]? = some c →
    (∀ t ∈ ts, ¬ (t.offset ≤ offset + i ∧ offset + i < t.stop)) → c ∈ blanks

theorem tilingFrom_zero : TilingFrom 0 cs ts ↔ Tiling cs ts := by
  constructor
  · rintro ⟨increasing, placed, blank⟩
    refine ⟨increasing, fun t member => (placed t member).2.1,
      fun t member => (placed t member).2.2, ?_⟩
    simpa only [Nat.zero_add] using blank
  · rintro ⟨increasing, longest, clean, blank⟩
    refine ⟨increasing, fun t member => ⟨Nat.zero_le _, longest t member, clean t member⟩, ?_⟩
    simpa only [Nat.zero_add] using blank

theorem drop_behind_blank (cs : List Char) (behind : offset + 1 ≤ t.offset) :
    (c :: cs).drop (t.offset - offset) = cs.drop (t.offset - (offset + 1)) := by
  have step : t.offset - offset = t.offset - (offset + 1) + 1 := by omega
  rw [step, List.drop_succ_cons]

theorem drop_behind_token (cs : List Char) (behind : offset + text.length ≤ t.offset) :
    (text ++ cs).drop (t.offset - offset) = cs.drop (t.offset - (offset + text.length)) := by
  rw [List.drop_append, List.drop_eq_nil_of_le (by omega), List.nil_append, Nat.sub_sub]

theorem stop_eq (t : Token) : t.stop = t.offset + t.text.toList.length := by
  rw [Token.stop, String.length_toList]

theorem tilingFrom_blank (blank : c ∈ blanks) (others : TilingFrom (offset + 1) cs ts) :
    TilingFrom offset (c :: cs) ts := by
  constructor
  · exact others.increasing
  · intro t member
    obtain ⟨behind, placed⟩ := others.placed t member
    rw [drop_behind_blank cs behind]
    exact ⟨Nat.le_of_succ_le behind, placed⟩
  · intro i d place outside
    cases i with
    | zero =>
      cases place
      exact blank
    | succ i =>
      refine others.blank i d place fun t member => ?_
      rw [Nat.add_assoc, Nat.add_comm 1]
      exact outside t member

theorem tilingFrom_token {kind : Token.Kind} (longest : Longest (text ++ cs) kind text)
    (clean : ¬ LeadingZeros (text ++ cs)) (others : TilingFrom (offset + text.length) cs ts) :
    TilingFrom offset (text ++ cs) (⟨kind, String.ofList text, offset⟩ :: ts) := by
  have filled := length_pos_of_lexeme longest.lexeme
  have stop : Token.stop ⟨kind, String.ofList text, offset⟩ = offset + text.length := by
    simp [stop_eq]
  constructor
  · refine .cons (fun t member => ?_) others.increasing
    have behind := (others.placed t member).1
    rw [stop]
    exact ⟨Nat.lt_of_lt_of_le (Nat.lt_add_of_pos_right filled) behind, behind⟩
  · intro t member
    rcases List.mem_cons.mp member with rfl | member
    · simpa using ⟨longest, clean⟩
    · obtain ⟨behind, placed⟩ := others.placed t member
      rw [drop_behind_token cs behind]
      exact ⟨Nat.le_of_add_right_le behind, placed⟩
  · intro i c place outside
    have first := outside _ List.mem_cons_self
    rw [stop] at first
    have behind : text.length ≤ i := by
      simp only [Nat.le_add_right, true_and, Nat.not_lt] at first
      omega
    rw [List.getElem?_append_right behind] at place
    refine others.blank (i - text.length) c place fun t member => ?_
    have same : offset + text.length + (i - text.length) = offset + i := by omega
    rw [same]
    exact outside t (List.mem_cons_of_mem _ member)

theorem tilingFrom_of_reading (reading : Reading offset cs ts) : TilingFrom offset cs ts := by
  induction reading with
  | nil => exact ⟨.nil, by simp, by simp⟩
  | blank blank others ih => exact tilingFrom_blank blank ih
  | token longest clean others ih => exact tilingFrom_token longest clean ih

theorem tokens_of_nothing (tiling : TilingFrom offset [] ts) : ts = [] := by
  cases ts with
  | nil => rfl
  | cons t ts =>
    obtain ⟨-, longest, -⟩ := tiling.placed t List.mem_cons_self
    have filled := length_pos_of_lexeme longest.lexeme
    have short := longest.start.length_le
    rw [List.drop_nil, List.length_nil] at short
    exact absurd filled (Nat.not_lt.mpr short)

/-- In front of the first token there is a blank. -/
theorem split_blank (tiling : TilingFrom offset (c :: cs) ts)
    (later : ∀ t ∈ ts, offset < t.offset) : c ∈ blanks ∧ TilingFrom (offset + 1) cs ts := by
  constructor
  · refine tiling.blank 0 c rfl fun t member inside => ?_
    exact absurd inside.1 (Nat.not_le.mpr (later t member))
  · constructor
    · exact tiling.increasing
    · intro t member
      have placed := (tiling.placed t member).2
      rw [drop_behind_blank cs (later t member)] at placed
      exact ⟨later t member, placed⟩
    · intro i d place outside
      refine tiling.blank (i + 1) d place fun t member => ?_
      have same : offset + (i + 1) = offset + 1 + i := by omega
      rw [same]
      exact outside t member

theorem split_token (tiling : TilingFrom offset cs (t :: ts)) (here : t.offset = offset) :
    ∃ rest, cs = t.text.toList ++ rest ∧ Longest cs t.kind t.text.toList ∧ ¬ LeadingZeros cs ∧
      TilingFrom (offset + t.text.toList.length) rest ts := by
  obtain ⟨-, longest, clean⟩ := tiling.placed t List.mem_cons_self
  rw [here, Nat.sub_self, List.drop_zero] at longest clean
  obtain ⟨rest, split⟩ := longest.start
  obtain ⟨first, increasing⟩ := List.pairwise_cons.mp tiling.increasing
  have stop : t.stop = offset + t.text.toList.length := by rw [stop_eq, here]
  have behind : ∀ u ∈ ts, offset + t.text.toList.length ≤ u.offset := fun u member =>
    stop ▸ (first u member).2
  refine ⟨rest, split.symm, longest, clean, increasing, fun u member => ?_, ?_⟩
  · have placed := (tiling.placed u (List.mem_cons_of_mem t member)).2
    rw [← split, drop_behind_token rest (behind u member)] at placed
    exact ⟨behind u member, placed⟩
  · intro i d place outside
    have same : offset + (t.text.toList.length + i) = offset + t.text.toList.length + i :=
      (Nat.add_assoc ..).symm
    refine tiling.blank (t.text.toList.length + i) d ?_ fun u member => ?_
    · rw [← split, List.getElem?_append_right (Nat.le_add_right ..), Nat.add_sub_cancel_left]
      exact place
    · rw [same]
      rcases List.mem_cons.mp member with rfl | member
      · rw [stop]
        exact fun inside => absurd inside.2 (Nat.not_lt.mpr (Nat.le_add_right ..))
      · exact outside u member

/-- The first token stands at the offset, unless all stand behind it. -/
theorem offset_of_first (tiling : TilingFrom offset cs (t :: ts))
    (reached : ¬ ∀ u ∈ t :: ts, offset < u.offset) : t.offset = offset := by
  have first := (tiling.placed t List.mem_cons_self).1
  refine Nat.le_antisymm (Nat.not_lt.mp fun behind => reached fun u member => ?_) first
  rcases List.mem_cons.mp member with rfl | member
  · exact behind
  · exact Nat.lt_trans behind ((List.pairwise_cons.mp tiling.increasing).1 u member).1

/-- The induction is on the length of the text, since a token takes many characters at once. -/
theorem reading_of_tilingFrom (tiling : TilingFrom offset cs ts) : Reading offset cs ts := by
  induction size : cs.length using Nat.strongRecOn generalizing offset cs ts with
  | ind length ih =>
    subst size
    cases cs with
    | nil =>
      cases tokens_of_nothing tiling
      exact .nil
    | cons c cs =>
      by_cases later : ∀ t ∈ ts, offset < t.offset
      · obtain ⟨blank, others⟩ := split_blank tiling later
        exact .blank blank (ih cs.length (Nat.lt_succ_self _) others rfl)
      cases ts with
      | nil => simp at later
      | cons t ts =>
        have here := offset_of_first tiling later
        obtain ⟨rest, split, longest, clean, others⟩ := split_token tiling here
        have shorter : rest.length < (c :: cs).length := by
          have filled := length_pos_of_lexeme longest.lexeme
          rw [split, List.length_append]
          omega
        have token : (⟨t.kind, String.ofList t.text.toList, offset⟩ : Token) = t := by
          rw [String.ofList_toList, ← here]
        rw [split] at longest clean ⊢
        have reading := Reading.token longest clean (ih rest.length shorter others rfl)
        rwa [token] at reading

theorem tiling_iff_reading : Tiling cs ts ↔ Reading 0 cs ts := by
  rw [← tilingFrom_zero]
  exact ⟨reading_of_tilingFrom, tilingFrom_of_reading⟩

end Plc.Lexical

namespace Plc

open Lexical

theorem Token.ofSource_eq_ok_iff {source : String} {ts : List Token} :
    Token.ofSource source = .ok ts ↔ Tiling source.toList ts := by
  rw [tiling_iff_reading, Token.ofSource]
  constructor
  · intro found
    have answered := tokensFrom_answered 0 source.toList
    rw [found] at answered
    generalize source.toList = cs at answered
    cases answered with
    | all reading => exact reading
  · exact tokensFrom_of_reading

/-- A source text is cut into the tokens of its one tiling, or it has none: there is a place where a
number has a zero too many or a quote opens nothing, and what is before it is cut. -/
theorem maximal_munch (source : String) : match Token.ofSource source with
    | .ok ts => ∀ us, Tiling source.toList us ↔ us = ts
    | .error (cause, offset) => (∀ us, ¬ Tiling source.toList us) ∧
        ∃ before after ts inside, source.toList = before ++ after ∧
          Token.ofSource (String.ofList before) = .ok ts ∧
          (LeadingZeros after ∨ OpensNothing after) ∧ Malformed after cause inside ∧
          offset = before.length + inside ∧ offset ≤ source.length := by
  have one : ∀ us, Tiling source.toList us ↔ Token.ofSource source = .ok us :=
    fun us => Token.ofSource_eq_ok_iff.symm
  have answered : Answered 0 source.toList (Token.ofSource source) :=
    tokensFrom_answered 0 source.toList
  simp only [one]
  generalize Token.ofSource source = answer at answered
  generalize split : source.toList = cs at answered
  cases answered with
  | all reading => exact fun us => ⟨fun same => (Except.ok.inj same).symm, fun same => same ▸ rfl⟩
  | @part before after ts cause inside reading malformed reason =>
    have short := inside_of_malformed malformed
    have length : source.length = before.length + after.length := by
      rw [← String.length_toList, split, List.length_append]
    have cut : Token.ofSource (String.ofList before) = .ok ts := by
      rw [Token.ofSource, String.toList_ofList, tokensFrom_of_reading reading]
    exact ⟨fun us same => (nomatch same), before, after, ts, inside, rfl, cut, reason, malformed,
      by omega, by omega⟩

end Plc
