import Mathlib.Tactic.SplitIfs
import SymbolicAlgebra.InputLine
import SymbolicAlgebra.Proofs.Text.Blank

/-! What is read from a line. The bytes of a text have a newline only where the text has
one, so a line of the stream is a line of the text. Its value is what stands between the
label and the end, apart from blanks, and the two bounds are the parts of the value. -/

namespace SymbolicAlgebra

namespace ByteStream

variable {text ending : String} {line rest : ByteStream}

/-- The bytes of a text. -/
def ofText (text : String) : ByteStream := text.toUTF8.data.toList

theorem ofText_append (s t : String) : ofText (s ++ t) = ofText s ++ ofText t := by
  simp only [ofText, String.toUTF8_eq_toByteArray, String.toByteArray_append, ByteArray.toList_data_append]

theorem ofText_eq_flatMap (text : String) : ofText text = text.toList.flatMap String.utf8EncodeChar := by
  have bytes : text.toByteArray = text.toList.utf8Encode := by
    rw [← String.toByteArray_ofList, String.ofList_toList]
  rw [ofText, String.toUTF8_eq_toByteArray, bytes, List.utf8Encode, List.toList_data_toByteArray]

/-- The bytes of all longer characters are beyond the newline. -/
theorem newline_mem_utf8EncodeChar {c : Char} : newline ∈ String.utf8EncodeChar c ↔ c = '\n' := by
  constructor
  · intro member
    have ten : newline.toNat = 10 := rfl
    have code : c.val.toNat = 10 := by
      simp only [String.utf8EncodeChar] at member
      split_ifs at member
      all_goals
        simp only [List.mem_cons, List.not_mem_nil, or_false, ← UInt8.toNat_inj, UInt8.toNat_ofNat',
          ten] at member
        omega
    exact Char.toNat_inj.mp code
  · rintro rfl
    decide

theorem newline_mem_ofText : newline ∈ ofText text ↔ '\n' ∈ text.toList := by
  rw [ofText_eq_flatMap, List.mem_flatMap]
  simp only [newline_mem_utf8EncodeChar, exists_eq_right]

theorem takeLine_newline (absent : newline ∉ line) (rest : ByteStream) :
    takeLine (line ++ newline :: rest) = (line ++ [newline], rest) := by
  induction line with
  | nil => rfl
  | cons b line ih =>
      rw [List.mem_cons, not_or] at absent
      rw [List.cons_append, takeLine, if_neg (Ne.symm absent.1), ih absent.2]
      rfl

theorem takeLine_last (absent : newline ∉ line) : takeLine line = (line, []) := by
  induction line with
  | nil => rfl
  | cons b line ih =>
      rw [List.mem_cons, not_or] at absent
      rw [takeLine, if_neg (Ne.symm absent.1), ih absent.2]

/-- How a line ends: with a newline, with a carriage return before it, or with the stream. -/
inductive EndsLine : String → ByteStream → Prop where
  | newline (rest : ByteStream) : EndsLine "\n" rest
  | carriageReturn (rest : ByteStream) : EndsLine "\r\n" rest
  | stream : EndsLine "" []

theorem takeLine_ofText (single : '\n' ∉ text.toList) (ends : EndsLine ending rest) :
    takeLine (ofText (text ++ ending) ++ rest) = (ofText (text ++ ending), rest) := by
  have absent : newline ∉ ofText text := newline_mem_ofText.not.mpr single
  cases ends with
  | newline rest =>
      have last : ofText "\n" = [newline] := by decide
      rw [ofText_append, last, List.append_assoc]
      exact takeLine_newline absent rest
  | carriageReturn rest =>
      have last : ofText "\r\n" = [13] ++ [newline] := by decide
      have absent : newline ∉ ofText text ++ [13] := by
        rw [List.mem_append, not_or]
        exact ⟨absent, by decide⟩
      rw [ofText_append, last, ← List.append_assoc, List.append_assoc]
      exact takeLine_newline absent rest
  | stream =>
      rw [String.append_empty, List.append_nil]
      exact takeLine_last absent

end ByteStream

namespace InputLine
open Text

variable {label text body lower upper : String} {line : List UInt8} {cs rest : List Char}

theorem fromUTF8?_eq_some {bytes : ByteArray} :
    String.fromUTF8? bytes = some text ↔ bytes = text.toByteArray := by
  rw [String.fromUTF8?]
  constructor
  · intro decoded
    split at decoded
    next valid =>
      obtain rfl := Option.some.inj decoded
      rfl
    next => cases decoded
  · rintro rfl
    rw [dif_pos text.isValidUTF8]
    rfl

theorem ofText_eq_nil : ByteStream.ofText text = [] ↔ text = "" := by
  rw [ByteStream.ofText_eq_flatMap, List.flatMap_eq_nil_iff, ← String.toList_eq_nil_iff,
    List.eq_nil_iff_forall_not_mem]
  exact forall_congr' fun c => imp_congr_right fun _ => iff_of_false String.utf8EncodeChar_ne_nil id

/-- A line is decoded to the text whose bytes it holds. -/
theorem decode_eq_ok : decode line = .ok text ↔ line = ByteStream.ofText text ∧ text ≠ "" := by
  constructor
  · intro read
    rw [decode] at read
    split at read
    next => cases read
    next nonempty =>
      split at read
      next decoded =>
        cases read
        have bytes := congrArg (fun b => b.data.toList) (fromUTF8?_eq_some.mp decoded)
        obtain rfl : line = ByteStream.ofText text := bytes
        exact ⟨rfl, fun empty => nonempty (List.isEmpty_iff.mpr (ofText_eq_nil.mpr empty))⟩
      next => cases read
  · rintro ⟨rfl, nonempty⟩
    have decoded : String.fromUTF8? ⟨(ByteStream.ofText text).toArray⟩ = some text :=
      fromUTF8?_eq_some.mpr rfl
    rw [decode, if_neg (by rwa [List.isEmpty_iff, ofText_eq_nil]), decoded]

theorem afterLabel?_eq_some {label : List Char} : afterLabel? label cs = some rest ↔ cs = label ++ rest := by
  induction label generalizing cs with
  | nil => exact Option.some_inj
  | cons c label ih =>
      cases cs with
      | nil => exact iff_of_false nofun nofun
      | cons d cs =>
          rw [afterLabel?, List.cons_append, List.cons.injEq, ← ih]
          split
          next same => simp [same]
          next different => simp [Ne.symm different]

/-- Only blanks are taken off the end of a line. -/
theorem exists_ending (cs : List Char) : ∃ ending, Blank ending ∧ cs = withoutEnding cs ++ ending := by
  have parted {ending turned : List Char} (same : cs.reverse = ending.reverse ++ turned) :
      cs = turned.reverse ++ ending := by
    rw [← List.reverse_inj, List.reverse_append, List.reverse_reverse, same]
  rw [withoutEnding]
  split
  next turned same => exact ⟨['\r', '\n'], by simp [Blank, isBlank, blankRanges], parted same⟩
  next turned _ same => exact ⟨['\n'], by simp [Blank, isBlank, blankRanges], parted same⟩
  next => exact ⟨[], nofun, (List.append_nil cs).symm⟩

/-- Behind a text that does not end in a blank, nothing but blanks is taken off. -/
theorem withoutEnding_append {behind : List Char} (last : ∀ c ∈ cs.getLast?, isBlank c = false)
    (blank : Blank behind) : ∃ kept, Blank kept ∧ withoutEnding (cs ++ behind) = cs ++ kept := by
  obtain ⟨ending, blankEnding, whole⟩ := exists_ending (cs ++ behind)
  rcases List.append_eq_append_iff.mp whole with ⟨kept, within, same⟩ | ⟨lost, same, within⟩
  · exact ⟨kept, (List.forall_mem_append.mp (same ▸ blank)).1, within⟩
  · -- whatever the ending takes from the text in front is blank, and the text ends in no blank
    have nothing : lost = [] := by
      refine List.getLast?_eq_none_iff.mp (Option.eq_none_iff_forall_not_mem.mpr fun c final => ?_)
      have blankLast : isBlank c = true :=
        blankEnding c (within ▸ List.mem_append_left _ (List.mem_of_getLast? final))
      have clear : isBlank c = false := last c (by rw [same, List.getLast?_append, Option.mem_def.mp final]; rfl)
      exact absurd blankLast (clear ▸ Bool.false_ne_true)
    rw [nothing, List.append_nil] at same
    exact ⟨[], nofun, same.symm.trans (List.append_nil cs).symm⟩

theorem ofList_ne_empty (nonempty : cs ≠ []) : String.ofList cs ≠ "" :=
  fun empty => nonempty (by rw [← String.toList_ofList (l := cs), empty, String.toList_empty])

theorem value_eq_ok_iff_trim : value label line = .ok body ↔ ∃ text rest, decode line = .ok text ∧
    withoutEnding text.toList = label.toList ++ rest ∧ trim rest = body.toList ∧ body ≠ "" := by
  constructor
  · intro read
    rw [value] at read
    split at read
    next => cases read
    next text decoded =>
      split at read
      next => cases read
      next => cases read
      next cs nonempty found =>
        obtain rfl := Except.ok.inj read
        obtain ⟨rest, labelled, trimmed⟩ := Option.map_eq_some_iff.mp found
        exact ⟨text, rest, decoded, afterLabel?_eq_some.mp labelled,
          by rw [trimmed, String.toList_ofList], ofList_ne_empty fun empty => nonempty (empty ▸ rfl)⟩
  · rintro ⟨text, rest, decoded, labelled, trimmed, nonempty⟩
    have found : (afterLabel? label.toList (withoutEnding text.toList)).map trim = some body.toList := by
      rw [afterLabel?_eq_some.mpr labelled, Option.map_some, trimmed]
    rw [value, decoded]
    simp only [found]
    split
    next missing => cases missing
    next empty => exact absurd (String.toList_eq_nil_iff.mp (Option.some.inj empty)) nonempty
    next cs _ same => rw [← Option.some.inj same, String.ofList_toList]

/-- The value of a line stands behind the label, apart from blanks. -/
theorem value_eq_ok : value label line = .ok body ↔
    body ≠ "" ∧ Trimmed body.toList ∧ ∃ front behind : String, Blank front.toList ∧
      Blank behind.toList ∧ line = ByteStream.ofText (label ++ front ++ body ++ behind) := by
  rw [value_eq_ok_iff_trim]
  constructor
  · rintro ⟨text, rest, decoded, labelled, trimmed, nonempty⟩
    obtain ⟨rfl, -⟩ := decode_eq_ok.mp decoded
    obtain ⟨ends, front, behind, blankFront, blankBehind, rfl⟩ := trim_eq_iff.mp trimmed
    obtain ⟨ending, blankEnding, whole⟩ := exists_ending text.toList
    refine ⟨nonempty, ends, .ofList front, .ofList (behind ++ ending), ?_, ?_, ?_⟩
    · rwa [String.toList_ofList]
    · rw [String.toList_ofList]
      exact blankBehind.append blankEnding
    · congr 1
      rw [← String.toList_inj, whole, labelled]
      simp only [String.toList_append, String.toList_ofList, List.append_assoc]
  · rintro ⟨nonempty, ends, front, behind, blankFront, blankBehind, rfl⟩
    have last : ∀ c ∈ (label ++ front ++ body).toList.getLast?, isBlank c = false := by
      rw [String.toList_append, List.getLast?_append_of_ne_nil _ (String.toList_eq_nil_iff.not.mpr nonempty)]
      exact ends.2
    obtain ⟨kept, blankKept, stripped⟩ := withoutEnding_append last blankBehind
    refine ⟨label ++ front ++ body ++ behind, front.toList ++ body.toList ++ kept,
      decode_eq_ok.mpr ⟨rfl, ?_⟩, ?_, ?_, nonempty⟩
    · simp [nonempty]
    · simpa only [String.toList_append, List.append_assoc] using stripped
    · exact trim_eq_iff.mpr ⟨ends, _, _, blankFront, blankKept, rfl⟩

theorem boundTexts_eq_ok_iff_trim : boundTexts text = .ok (lower, upper) ↔ ∃ before after,
    splitAtComma? text.toList = some (before, after) ∧ splitAtComma? after = none ∧
      trim before = lower.toList ∧ trim after = upper.toList ∧ lower ≠ "" ∧ upper ≠ "" := by
  constructor
  · intro read
    rw [boundTexts] at read
    split at read
    next => cases read
    next before after divided =>
      split at read
      next => cases read
      next once =>
        split at read
        next => cases read
        next => cases read
        next nonemptyLower nonemptyUpper =>
          obtain ⟨rfl, rfl⟩ := Prod.mk.inj (Except.ok.inj read)
          exact ⟨before, after, divided, by simpa using once, String.toList_ofList.symm,
            String.toList_ofList.symm, ofList_ne_empty nonemptyLower, ofList_ne_empty nonemptyUpper⟩
  · rintro ⟨before, after, divided, once, trimsLower, trimsUpper, nonemptyLower, nonemptyUpper⟩
    rw [boundTexts, divided]
    simp only [once, Option.isSome_none, Bool.false_eq_true, if_false, trimsLower, trimsUpper]
    split
    next empty => exact absurd (String.toList_eq_nil_iff.mp empty) nonemptyLower
    next empty _ => exact absurd (String.toList_eq_nil_iff.mp empty) nonemptyUpper
    next => rw [String.ofList_toList, String.ofList_toList]

/-- Two bounds are the parts of a text around its only separator. -/
theorem boundTexts_eq_ok : boundTexts text = .ok (lower, upper) ↔
    ∃ before after, DividesOnce text.toList before after ∧ TrimsTo before lower.toList ∧
      TrimsTo after upper.toList ∧ lower ≠ "" ∧ upper ≠ "" := by
  rw [boundTexts_eq_ok_iff_trim]
  refine exists_congr fun before => exists_congr fun after => ?_
  rw [splitAtComma?_eq_some, splitAtComma?_eq_none, dividesOnce_iff, trim_eq_iff, trim_eq_iff,
    and_assoc, and_assoc, and_assoc]

/-- A text that can be one of the two bounds on a line. -/
structure Bound (text : String) : Prop where
  nonempty : text ≠ ""
  trimmed : Trimmed text.toList
  single : '\n' ∉ text.toList
  undivided : Undivided text.toList

/-- Blanks on a line. -/
structure Gap (text : String) : Prop where
  blank : Blank text.toList
  single : '\n' ∉ text.toList

variable {front behind ending : String} {stream rest : ByteStream}

/-- The two bounds on a line are trimmed, so the line without blank ends is trimmed too. -/
theorem Bound.trimmed_pair (l : Bound lower) (u : Bound upper) : Trimmed (lower ++ ", " ++ upper).toList := by
  have nonemptyLower := String.toList_eq_nil_iff.not.mpr l.nonempty
  have nonemptyUpper := String.toList_eq_nil_iff.not.mpr u.nonempty
  simp only [String.toList_append, Trimmed]
  rw [List.append_assoc, List.head?_append_of_ne_nil _ nonemptyLower, ← List.append_assoc,
    List.getLast?_append_of_ne_nil _ nonemptyUpper]
  exact ⟨l.trimmed.1, u.trimmed.2⟩

theorem Bound.boundTexts_pair (l : Bound lower) (u : Bound upper) :
    boundTexts (lower ++ ", " ++ upper) = .ok (lower, upper) := by
  have separated : (lower ++ ", " ++ upper).toList = lower.toList ++ ',' :: ' ' :: upper.toList := by
    simp only [String.toList_append, List.append_assoc]
    rfl
  have whole (cs : List Char) (trimmed : Trimmed cs) : TrimsTo cs cs :=
    ⟨trimmed, [], [], nofun, nofun, by simp⟩
  exact boundTexts_eq_ok.mpr ⟨lower.toList, upper.toList,
    dividesOnce_iff.mpr ⟨separated, l.undivided, u.undivided⟩, whole _ l.trimmed, whole _ u.trimmed,
    l.nonempty, u.nonempty⟩

theorem blank_of_endsLine (ends : ByteStream.EndsLine ending rest) : Blank ending.toList := by
  cases ends <;> simp [Blank, isBlank, blankRanges]

theorem read_line (oneLine : '\n' ∉ label.toList) (l : Bound lower) (u : Bound upper) (before : Gap front)
    (after : Gap behind) (ends : ByteStream.EndsLine ending rest) :
    read label (ByteStream.ofText (label ++ front ++ lower ++ ", " ++ upper ++ behind ++ ending) ++ rest) =
      (.ok (lower ++ ", " ++ upper), rest) := by
  have single : '\n' ∉ (label ++ front ++ lower ++ ", " ++ upper ++ behind).toList := by
    simp [oneLine, l.single, u.single, before.single, after.single]
  have blankEnd : Blank (behind ++ ending).toList := by
    rw [String.toList_append]
    exact after.blank.append (blank_of_endsLine ends)
  have nonempty : lower ++ ", " ++ upper ≠ "" := by simp
  rw [read, ByteStream.takeLine_ofText single ends]
  refine Prod.ext (value_eq_ok.mpr ⟨nonempty, l.trimmed_pair u, front, behind ++ ending, before.blank,
    blankEnd, ?_⟩) rfl
  simp only [String.append_assoc]

theorem line_of_read {text : String} (h : read label stream = (.ok text, rest)) :
    ∃ front behind : String, Blank front.toList ∧ Blank behind.toList ∧
      stream = ByteStream.ofText (label ++ front ++ text ++ behind) ++ rest := by
  obtain ⟨found, rfl⟩ := Prod.mk.inj h
  obtain ⟨-, -, front, behind, blankFront, blankBehind, whole⟩ := value_eq_ok.mp found
  exact ⟨front, behind, blankFront, blankBehind, whole ▸ stream.takeLine_append.symm⟩

/-- Two bounds are read from a line as they were written there, whatever blanks stand around
them and however the line ends, and they are read from no other line. -/
theorem bounds_line_is_read_exactly (label : String) :
    (∀ {lower upper front behind ending : String} {rest : ByteStream}, '\n' ∉ label.toList →
      Bound lower → Bound upper → Gap front → Gap behind → ByteStream.EndsLine ending rest →
      read label (ByteStream.ofText (label ++ front ++ lower ++ ", " ++ upper ++ behind ++ ending) ++ rest) =
        (.ok (lower ++ ", " ++ upper), rest) ∧
      boundTexts (lower ++ ", " ++ upper) = .ok (lower, upper)) ∧
    (∀ text lower upper, boundTexts text = .ok (lower, upper) ↔
      ∃ before after, DividesOnce text.toList before after ∧ TrimsTo before lower.toList ∧
        TrimsTo after upper.toList ∧ lower ≠ "" ∧ upper ≠ "") ∧
    ∀ {stream rest text}, read label stream = (.ok text, rest) →
      ∃ front behind : String, Blank front.toList ∧ Blank behind.toList ∧
        stream = ByteStream.ofText (label ++ front ++ text ++ behind) ++ rest :=
  ⟨fun oneLine l u before after ends => ⟨read_line oneLine l u before after ends, l.boundTexts_pair u⟩,
    fun _ _ _ => boundTexts_eq_ok, line_of_read⟩

theorem bounds_with_commas_are_read_exactly :
    read "Bounds   : " (ByteStream.ofText "Bounds   : \t2,, sin(x),y \r\nBounds") =
        (.ok "2,, sin(x),y", ByteStream.ofText "Bounds") ∧
      boundTexts "2,, sin(x),y" = .ok ("2,", "sin(x),y") := by
  have lower : Bound "2," := ⟨by decide, by decide, by decide, by decide⟩
  have upper : Bound "sin(x),y" := ⟨by decide, by decide, by decide, by decide⟩
  have front : Gap "\t" := ⟨by decide, by decide⟩
  have behind : Gap " " := ⟨by decide, by decide⟩
  have text : "2,, sin(x),y" = "2," ++ ", " ++ "sin(x),y" := by decide
  have lines : "Bounds   : \t2,, sin(x),y \r\nBounds" =
      "Bounds   : " ++ "\t" ++ "2," ++ ", " ++ "sin(x),y" ++ " " ++ "\r\n" ++ "Bounds" := by decide
  rw [text, lines, ByteStream.ofText_append]
  exact (bounds_line_is_read_exactly "Bounds   : ").1 (by decide) lower upper front behind
    (.carriageReturn (ByteStream.ofText "Bounds"))

end InputLine
end SymbolicAlgebra
