import LaurentCalc.Proofs.Polynomial.Arithmetic
import LaurentCalc.Proofs.Text.Lines
import LaurentCalc.Proofs.Text.OneLine

/-!
# Typed lines

A text is typed as its bytes in UTF-8 with a line feed behind them.  No other line feed gets in
this way: a byte of that value encodes nothing but the character itself.  So texts without line
breaks are taken in again line by line, each as it was typed, except that line ends behind it are
dropped; and these are blank, so they take no part in what an expression means.

* `typed` — the bytes of a line.
* **`lines_typed`** — typed lines are the lines of the input.
* `lineText?_typed` — the text of a typed line.
* **`ofText_dropLineEnd`** — dropped line ends leave an expression what it is.
-/

namespace LaurentCalc

/-! ## Bytes -/

/-- The bytes of a text, and a line feed. -/
def typed (text : String) : List UInt8 := text.toUTF8.data.toList ++ [lineFeed]

/-- The bytes of a character other than ASCII are all of 128 and more. -/
lemma lineFeed_mem_utf8EncodeChar {c : Char} (h : lineFeed ∈ String.utf8EncodeChar c) :
    c = '\n' := by
  have hbyte : ∀ n, lineFeed = UInt8.ofNat n → n % 256 = 10 := fun n hn =>
    (UInt8.toNat_ofNat'.symm.trans (congrArg UInt8.toNat hn.symm))
  simp only [String.utf8EncodeChar] at h
  split at h
  next hascii =>
    have hvalue := hbyte _ (List.mem_singleton.1 h)
    have hten : c.val.toNat = 10 := by omega
    exact Char.ext (UInt32.toNat_inj.1 hten)
  next =>
    -- in every other form each byte has its highest bit set
    split at h
    · simp only [List.mem_cons, List.not_mem_nil, or_false] at h
      rcases h with h | h <;> have := hbyte _ h <;> omega
    · split at h
      · simp only [List.mem_cons, List.not_mem_nil, or_false] at h
        rcases h with h | h | h <;> have := hbyte _ h <;> omega
      · simp only [List.mem_cons, List.not_mem_nil, or_false] at h
        rcases h with h | h | h | h <;> have := hbyte _ h <;> omega

lemma lineFeed_not_mem_toUTF8 {text : String} (h : OneLine text) :
    lineFeed ∉ text.toUTF8.data.toList := by
  have hbytes : text.toUTF8.data.toList = text.toList.flatMap String.utf8EncodeChar := by
    rw [String.toUTF8_eq_toByteArray, ← String.ofList_toList (s := text), String.toByteArray_ofList,
      List.utf8Encode, List.data_toByteArray, String.toList_ofList]
  rw [hbytes]
  intro hmem
  obtain ⟨c, hc, hbyte⟩ := List.mem_flatMap.1 hmem
  exact h (lineFeed_mem_utf8EncodeChar hbyte ▸ hc)

/-! ## Lines -/

/-- A line is taken off the front of an input at its line feed. -/
lemma lines_append_lineFeed {l : List UInt8} (h : lineFeed ∉ l) (bs : List UInt8) :
    lines (l ++ lineFeed :: bs) = (l ++ [lineFeed]) :: lines bs := by
  induction l with
  | nil => rw [List.nil_append, lines, if_pos rfl, List.nil_append]
  | cons b l ih =>
      obtain ⟨hb, hl⟩ := not_or.1 (mt List.mem_cons.2 h)
      rw [List.cons_append, lines, if_neg (Ne.symm hb), ih hl]
      rfl

/-- **Typed lines are lines.** -/
theorem lines_typed {texts : List String} (h : ∀ text ∈ texts, OneLine text) :
    lines (texts.flatMap typed) = texts.map typed := by
  induction texts with
  | nil => rfl
  | cons text texts ih =>
      rw [List.forall_mem_cons] at h
      rw [List.flatMap_cons, typed, List.append_assoc, List.singleton_append,
        lines_append_lineFeed (lineFeed_not_mem_toUTF8 h.1), ih h.2]
      rfl

lemma dropLineEnd_append (text : String) : dropLineEnd (text ++ "\n") = dropLineEnd text := by
  rw [dropLineEnd, String.toList_append, List.reverse_append]
  rfl

lemma lineText?_typed (text : String) : lineText? (typed text) = some (dropLineEnd text) := by
  have hbytes : (⟨(typed text).toArray⟩ : ByteArray) = (text ++ "\n").toByteArray := by
    refine ByteArray.ext ?_
    rw [typed, String.toUTF8_eq_toByteArray, String.toByteArray_append, ByteArray.data_append,
      ← List.append_toArray, Array.toArray_toList]
    rfl
  rw [lineText?, hbytes, String.fromUTF8?, dif_pos (text ++ "\n").isValidUTF8,
    ← dropLineEnd_append]
  rfl

/-! ## Line ends -/

lemma filter_dropWhile {α : Type} {p q : α → Bool} (h : ∀ a, p a = true → q a = false)
    (as : List α) : (as.dropWhile p).filter q = as.filter q := by
  induction as with
  | nil => rfl
  | cons a as ih =>
      rw [List.dropWhile_cons]
      split
      next ha => rw [ih, List.filter_cons_of_neg (by simp [h a ha])]
      next => rfl

lemma isBlank_of_isLineEnd {c : Char} (h : isLineEnd c = true) : isBlank c = true := by
  simp only [isLineEnd, Bool.or_eq_true, decide_eq_true_eq] at h
  rcases h with rfl | rfl <;> decide

lemma nonBlank_dropLineEnd (text : String) : nonBlank (dropLineEnd text) = nonBlank text := by
  have hblank : ∀ c, isLineEnd c = true → (!isBlank c) = false := fun c hc => by
    simp [isBlank_of_isLineEnd hc]
  rw [nonBlank, dropLineEnd, String.toList_ofList, List.filter_reverse, filter_dropWhile hblank,
    ← List.filter_reverse, List.reverse_reverse]
  rfl

/-- **Line ends behind an expression** leave it what it is. -/
theorem ofText_dropLineEnd {text : String} {p : Polynomial} (h : Polynomial.ofText text = .ok p) :
    Polynomial.ofText (dropLineEnd text) = .ok p := by
  obtain ⟨ts, hts, hp⟩ := bind_eq_ok_iff.1 h
  rw [termsOfText_eq_ok_iff, ← nonBlank_dropLineEnd, ← termsOfText_eq_ok_iff] at hts
  exact bind_eq_ok_iff.2 ⟨ts, hts, hp⟩

end LaurentCalc
