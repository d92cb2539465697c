import Mathlib.Data.List.DropRight
import PosixThreads.Waxy.Url.Text

/-!
# Input normalisation

`url_parse` removes the controls and spaces at both ends of its input, and the line breaks and tabs
in it. What should be left is `stripped`, without its breaks. The loop that removes the breaks does
its work, from the last byte down. The one `memmove` of `url_remove_trailing` has its arguments in
the wrong order: it copies the front of the input to where the text begins. The text that is left
is the right one only if nothing has to be removed in front of it, or if there is no text.
-/

namespace PosixThreads

/-- The input without the controls and spaces at both ends. -/
def stripped (input : List UInt8) : List UInt8 := (input.dropWhile isC0Space).rdropWhile isC0Space

/-- What the two functions should do. An error is reported exactly when bytes are removed. -/
structure NormalizeSound (input : List UInt8) : Prop where
  text_eq : (urlNormalize input).2 = (stripped input).filter fun c => !isBreak c
  trailing_err : (urlRemoveTrailing input).1.isSome = true ↔
    (urlRemoveTrailing input).2.length < input.length
  break_err : (urlRemoveTabNl (urlRemoveTrailing input).2).1.isSome = true ↔
    (urlRemoveTabNl (urlRemoveTrailing input).2).2.length < (urlRemoveTrailing input).2.length

section Normalize

variable {input : List UInt8}

/-! ## Line breaks and tabs -/

/-- The loop removes the breaks in front of the place where it begins. -/
theorem removeTabNl_eq (i : ℕ) (input : List UInt8) (seen : Bool) (hi : i ≤ input.length) :
    removeTabNl i input seen = ((input.take i).filter (fun c => !isBreak c) ++ input.drop i,
      seen || (input.take i).any isBreak) := by
  induction i generalizing input seen with
  | zero => simp [removeTabNl]
  | succ i ih =>
      have hlt : i < input.length := hi
      have htake : input.take (i + 1) = input.take i ++ [input[i]] :=
        List.take_succ_eq_append_getElem hlt
      have hfilter : (input.take (i + 1)).filter (fun c => !isBreak c) =
          (input.take i).filter (fun c => !isBreak c) ++
            if isBreak input[i] then [] else [input[i]] := by
        rw [htake, List.filter_append]
        cases hbreak : isBreak input[i] <;> simp [hbreak]
      have hany : (input.take (i + 1)).any isBreak =
          ((input.take i).any isBreak || isBreak input[i]) := by
        rw [htake, List.any_append]
        simp
      have hget : input[i]? = some input[i] := List.getElem?_eq_getElem hlt
      have hcond : (decide (input[i] = '\r'.toUInt8) || decide (input[i] = '\n'.toUInt8) ||
          decide (input[i] = '\t'.toUInt8)) = isBreak input[i] := rfl
      simp only [removeTabNl, hget, hcond, hfilter, hany]
      cases hbreak : isBreak input[i] with
      | true =>
          have hlen : (input.take i).length = i := List.length_take_of_le hlt.le
          rw [if_pos rfl, List.eraseIdx_eq_take_drop_succ, ih _ _ (by simp; omega),
            List.take_left' hlen, List.drop_left' hlen]
          simp
      | false =>
          rw [if_neg (by simp), ih _ _ hlt.le, List.drop_eq_getElem_cons hlt]
          simp

theorem urlRemoveTabNl_text (input : List UInt8) :
    (urlRemoveTabNl input).2 = input.filter fun c => !isBreak c := by
  simp [urlRemoveTabNl, removeTabNl_eq _ _ _ le_rfl]

theorem urlRemoveTabNl_err (input : List UInt8) : (urlRemoveTabNl input).1.isSome = true ↔
    (urlRemoveTabNl input).2.length < input.length := by
  rw [urlRemoveTabNl_text]
  have herr : (urlRemoveTabNl input).1.isSome = input.any isBreak := by
    simp only [urlRemoveTabNl, removeTabNl_eq _ _ _ le_rfl, List.take_length, Bool.false_or]
    cases input.any isBreak <;> rfl
  rw [herr, lt_iff_le_and_ne, and_iff_right (List.length_filter_le _ _), ne_eq,
    List.length_filter_eq_length_iff]
  simp

/-! ## Controls and spaces at the ends -/

def leading (input : List UInt8) : List UInt8 := input.takeWhile isC0Space

def trailing (input : List UInt8) : List UInt8 :=
  (input.dropWhile isC0Space).rtakeWhile isC0Space

theorem leading_append (input : List UInt8) :
    leading input ++ (stripped input ++ trailing input) = input := by
  rw [leading, stripped, trailing, List.rdropWhile_append_rtakeWhile,
    List.takeWhile_append_dropWhile]

theorem drop_leading (input : List UInt8) :
    input.drop (leading input).length = input.dropWhile isC0Space := by
  have hdrop : (leading input ++ input.dropWhile isC0Space).drop (leading input).length =
      input.dropWhile isC0Space := List.drop_left
  rwa [leading, List.takeWhile_append_dropWhile] at hdrop

/-- The two loops of `url_remove_trailing` find the text, and its bytes are taken from the front
of the input. -/
theorem urlRemoveTrailing_eq (input : List UInt8) : urlRemoveTrailing input =
    (errorCombine
      (if 0 < (leading input).length then
        some (.fromCstr "The input contains leading C0 control or space") else none)
      (if trailing input ≠ [] then
        some (.fromCstr "The input contains trailing C0 control or space") else none),
      (input.take (leading input).length ++ input.take (stripped input).length).take
        (stripped input).length) := by
  have hlen : input.length =
      (leading input).length + ((stripped input).length + (trailing input).length) := by
    conv_lhs => rw [← leading_append input]
    simp
  have htrailing : ((input.drop (leading input).length).reverse.takeWhile isC0Space).length =
      (trailing input).length := by
    rw [drop_leading, trailing, List.rtakeWhile, List.length_reverse]
  have hend : input.length - (trailing input).length - (leading input).length =
      (stripped input).length := by omega
  have hne : (input.length - (trailing input).length ≠ input.length) ↔ trailing input ≠ [] := by
    rw [← List.length_pos_iff]
    omega
  have hleading : input.takeWhile isC0Space = leading input := rfl
  simp only [urlRemoveTrailing, hleading, htrailing, hend, hne]

theorem length_urlRemoveTrailing (input : List UInt8) :
    (urlRemoveTrailing input).2.length = (stripped input).length := by
  have hle : (stripped input).length ≤ input.length := by
    conv_rhs => rw [← leading_append input]
    simp only [List.length_append]
    omega
  rw [urlRemoveTrailing_eq]
  simp only [List.length_take, List.length_append]
  omega

theorem urlRemoveTrailing_err (input : List UInt8) :
    (urlRemoveTrailing input).1.isSome = true ↔
      (urlRemoveTrailing input).2.length < input.length := by
  have hlen : input.length =
      (leading input).length + ((stripped input).length + (trailing input).length) := by
    conv_lhs => rw [← leading_append input]
    simp
  have hnone : (urlRemoveTrailing input).1 = none ↔
      (leading input).length = 0 ∧ (trailing input).length = 0 := by
    rw [urlRemoveTrailing_eq, errorCombine_eq_none_iff]
    simp
  rw [length_urlRemoveTrailing, Option.isSome_iff_ne_none, ne_eq, hnone]
  omega

/-- `memmove` of `n` bytes inside one buffer. -/
def memmove (storage : List UInt8) (dst src n : ℕ) : List UInt8 :=
  storage.take dst ++ (storage.drop src).take n ++ storage.drop (dst + n)

/-- `string_set_len`, which writes the NUL terminator. -/
def stringSetLen (storage : List UInt8) (len : ℕ) : List UInt8 := storage.take len ++ [0]

theorem urlRemoveTrailing_storage (input : List UInt8) :
    (urlRemoveTrailing input).2 ++ [0] = stringSetLen (memmove (input ++ [0])
      (leading input).length 0 (stripped input).length) (stripped input).length := by
  have hlen : (leading input).length + (stripped input).length ≤ input.length := by
    conv_rhs => rw [← leading_append input]
    simp only [List.length_append]
    omega
  have hcopied : (stripped input).length ≤
      (input.take (leading input).length ++ input.take (stripped input).length).length := by
    simp only [List.length_append, List.length_take]
    omega
  rw [urlRemoveTrailing_eq, stringSetLen, memmove, List.drop_zero,
    List.take_append_of_le_length (by omega : (leading input).length ≤ input.length),
    List.take_append_of_le_length (by omega : (stripped input).length ≤ input.length),
    List.take_append_of_le_length hcopied]

theorem urlRemoveTrailing_of_leading (h : leading input = []) :
    (urlRemoveTrailing input).2 = stripped input := by
  have happend := leading_append input
  rw [h, List.nil_append] at happend
  have htake : input.take (stripped input).length = stripped input := by
    have hleft : (stripped input ++ trailing input).take (stripped input).length =
        stripped input := List.take_left
    rwa [happend] at hleft
  simp only [urlRemoveTrailing_eq, h, List.length_nil, List.take_zero, List.nil_append, htake,
    List.take_length]

theorem isC0Space_of_isBreak {c : UInt8} (h : isBreak c = true) : isC0Space c = true := by
  simp only [isBreak, Bool.or_eq_true, decide_eq_true_eq] at h
  rcases h with (rfl | rfl) | rfl <;> decide

theorem filter_take_ne {k : ℕ} (hk : k < (stripped input).length) :
    ((stripped input).take k).filter (fun c => !isBreak c) ≠
      (stripped input).filter fun c => !isBreak c := by
  have hne : stripped input ≠ [] := List.ne_nil_of_length_pos (by omega)
  have hlast : isBreak ((stripped input).getLast hne) = false := by
    by_contra hbreak
    rw [Bool.not_eq_false] at hbreak
    exact List.rdropWhile_last_not isC0Space _ hne (isC0Space_of_isBreak hbreak)
  have hdrop : (stripped input).getLast hne ∈ (stripped input).drop k := by
    rw [← List.getLast_drop (by simpa using hk)]
    exact List.getLast_mem _
  intro heq
  conv_rhs at heq => rw [← List.take_append_drop k (stripped input), List.filter_append]
  have hnil := List.self_eq_append_right.mp heq
  rw [List.filter_eq_nil_iff] at hnil
  exact hnil _ hdrop (by simp [hlast])

theorem head_stripped (hne : stripped input ≠ []) :
    ∃ c rest, (stripped input).filter (fun c => !isBreak c) = c :: rest ∧
      isC0Space c = false := by
  obtain ⟨c, rest, hc⟩ := List.exists_cons_of_ne_nil hne
  have hdrop : input.dropWhile isC0Space = c :: (rest ++ trailing input) := by
    have happend : stripped input ++ trailing input = input.dropWhile isC0Space :=
      List.rdropWhile_append_rtakeWhile
    rw [← happend, hc, List.cons_append]
  have hspace : isC0Space c = false := by
    have hhead := List.head?_dropWhile_not isC0Space input
    rw [hdrop] at hhead
    simpa using hhead
  have hbreak : isBreak c = false := by
    by_contra hbreak
    rw [Bool.not_eq_false] at hbreak
    rw [isC0Space_of_isBreak hbreak] at hspace
    simp at hspace
  exact ⟨c, _, by rw [hc, List.filter_cons_of_pos (by simp [hbreak])], hspace⟩

/-- Otherwise the text that is left is a wrong one. -/
theorem urlNormalize_ne (hleading : leading input ≠ []) (hne : stripped input ≠ []) :
    (urlNormalize input).2 ≠ (stripped input).filter fun c => !isBreak c := by
  have hpos : 0 < (leading input).length := List.length_pos_iff.mpr hleading
  have htext : (urlNormalize input).2 =
      ((leading input).take (stripped input).length).filter (fun c => !isBreak c) ++
        (input.take ((stripped input).length - (leading input).length)).filter
          fun c => !isBreak c := by
    have htake : input.take (leading input).length = leading input := by
      have hleft : (leading input ++ (stripped input ++ trailing input)).take
          (leading input).length = leading input := List.take_left
      rwa [leading_append] at hleft
    simp only [urlNormalize, urlRemoveTabNl_text, urlRemoveTrailing_eq]
    rw [htake, List.take_append, List.filter_append, List.take_take, min_eq_left (by omega)]
  obtain ⟨c, rest, hfilter, hspace⟩ := head_stripped hne
  intro heq
  rw [htext] at heq
  cases hfront : ((leading input).take (stripped input).length).filter fun c => !isBreak c with
  | cons d front =>
      -- a blank that is no break is left in front
      have hmem : d ∈ (leading input).take (stripped input).length :=
        List.mem_of_mem_filter (hfront ▸ List.mem_cons_self)
      have hd : isC0Space d = true := List.mem_takeWhile_imp (List.mem_of_mem_take hmem)
      rw [hfront, hfilter, List.cons_append, List.cons_eq_cons] at heq
      rw [heq.1, hspace] at hd
      simp at hd
  | nil =>
      -- there are only breaks in front, and the end of the text is missing
      rw [hfront, List.nil_append] at heq
      generalize hn : (stripped input).length - (leading input).length = n at heq
      have hnil : ((leading input).take n).filter (fun c => !isBreak c) = [] := by
        rw [List.filter_eq_nil_iff] at hfront ⊢
        exact fun d hd => hfront d (List.take_subset_take_left _ (by omega) hd)
      have htake : input.take n =
          (leading input).take n ++ (stripped input).take (n - (leading input).length) := by
        conv_lhs => rw [← leading_append input]
        rw [List.take_append, List.take_append_of_le_length (by omega)]
      rw [htake, List.filter_append, hnil, List.nil_append] at heq
      have hlen : 0 < (stripped input).length := List.length_pos_iff.mpr hne
      exact filter_take_ne (by omega) heq

/-- The input is normalised as it should be exactly if it does not begin with a control or a
space, or consists of nothing else. -/
theorem normalizeSound_iff (input : List UInt8) : NormalizeSound input ↔
    input.head?.any isC0Space = false ∨ input.all isC0Space = true := by
  have hleading : leading input = [] ↔ input.head?.any isC0Space = false := by
    cases input with
    | nil => simp [leading]
    | cons c input => cases hc : isC0Space c <;> simp [leading, hc]
  have hstripped : stripped input = [] ↔ input.all isC0Space = true := by
    rw [stripped, List.rdropWhile_eq_nil_iff, List.all_eq_true]
    constructor
    · intro h c hc
      rw [← List.takeWhile_append_dropWhile (p := isC0Space) (l := input),
        List.mem_append] at hc
      exact hc.elim List.mem_takeWhile_imp (h c)
    · exact fun h c hc => h c ((List.dropWhile_suffix _).subset hc)
  constructor
  · intro hsound
    rw [← hleading, ← hstripped]
    by_contra hboth
    rw [not_or] at hboth
    exact urlNormalize_ne hboth.1 hboth.2 hsound.text_eq
  · intro hcond
    refine ⟨?_, urlRemoveTrailing_err input, urlRemoveTabNl_err _⟩
    simp only [urlNormalize, urlRemoveTabNl_text]
    rcases hcond with hfront | hall
    · rw [urlRemoveTrailing_of_leading (hleading.mpr hfront)]
    · have hnil := hstripped.mpr hall
      have hlen := length_urlRemoveTrailing input
      rw [hnil, List.length_nil, List.length_eq_zero_iff] at hlen
      rw [hlen, hnil]

/-- Of two spaces with two letters behind them the spaces are left. -/
theorem not_normalizeSound_space : ¬NormalizeSound (cstr "  ab") := by
  intro hsound
  exact absurd hsound.text_eq (by decide)

end Normalize

end PosixThreads
