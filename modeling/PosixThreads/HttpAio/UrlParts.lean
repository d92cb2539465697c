import PosixThreads.HttpAio.Url
import Mathlib.Data.List.TakeWhile

/-!
# What URLs are made of

`UrlParts` is what a URL is made of, and a URL has the form that is meant if it is the text of
well-formed parts. The parts of a text are found by looking for the delimiters, and parts that are
delimited are found again in their text.
-/

namespace PosixThreads

namespace HttpAio

/-! ## Pieces of a URL -/

section Pieces

variable {p xs ys : List UInt8} {c : Char}

theorem upTo_append_strchr (p : List UInt8) (c : Char) : upTo p c ++ strchr p c = p :=
  List.takeWhile_append_dropWhile

theorem not_mem_upTo (p : List UInt8) (c : Char) : c.toUInt8 ∉ upTo p c := by
  intro hmem
  simpa using List.mem_takeWhile_imp hmem

theorem strchr_cases (p : List UInt8) (c : Char) :
    strchr p c = [] ∨ ∃ rest, strchr p c = c.toUInt8 :: rest := by
  cases hp : strchr p c with
  | nil => exact .inl rfl
  | cons b rest =>
      have hhead := List.head?_dropWhile_not (fun b => b ≠ c.toUInt8) p
      rw [strchr] at hp
      rw [hp] at hhead
      have hb : b = c.toUInt8 := by simpa using hhead
      exact .inr ⟨rest, by rw [hb]⟩

theorem upTo_append (hxs : c.toUInt8 ∉ xs) (hys : ys = [] ∨ ∃ rest, ys = c.toUInt8 :: rest) :
    upTo (xs ++ ys) c = xs ∧ strchr (xs ++ ys) c = ys := by
  have hall : ∀ b ∈ xs, (decide (b ≠ c.toUInt8)) = true := by
    intro b hb
    rw [decide_eq_true_eq]
    rintro rfl
    exact hxs hb
  have hstop : ys.takeWhile (fun b => b ≠ c.toUInt8) = [] ∧
      ys.dropWhile (fun b => b ≠ c.toUInt8) = ys := by
    rcases hys with rfl | ⟨rest, rfl⟩
    · exact ⟨rfl, rfl⟩
    · simp
  rw [upTo, strchr, List.takeWhile_append_of_pos hall, List.dropWhile_append_of_pos hall, hstop.1,
    hstop.2, List.append_nil]
  exact ⟨rfl, rfl⟩

end Pieces

/-! ## The parts -/

/-- The host and the port of a URL, of which the port may be absent. -/
abbrev Authority := List UInt8 × Option (List UInt8)

/-- An optional part behind its delimiter. -/
def behind (c : Char) (part : Option (List UInt8)) : List UInt8 :=
  match part with
  | none => []
  | some part => c.toUInt8 :: part

def partBehind (p : List UInt8) (c : Char) : Option (List UInt8) :=
  match strchr p c with
  | [] => none
  | _ :: part => some part

namespace Authority

def text (a : Authority) : List UInt8 := a.1 ++ behind ':' a.2

def ofText (p : List UInt8) : Authority := (upTo p ':', partBehind p ':')

end Authority

/-- The parts of a URL. The rest is what follows a question mark. -/
structure UrlParts where
  scheme : List UInt8
  authority : Option Authority
  path : List UInt8
  rest : Option (List UInt8)

namespace UrlParts

def query (u : UrlParts) : List UInt8 := behind '?' u.rest

def afterScheme (u : UrlParts) : List UInt8 :=
  match u.authority with
  | none => u.path ++ u.query
  | some a => ['/'.toUInt8, '/'.toUInt8] ++ (a.text ++ (u.path ++ u.query))

def text (u : UrlParts) : List UInt8 := u.scheme ++ ':'.toUInt8 :: u.afterScheme

def host (u : UrlParts) : List UInt8 := (u.authority.map Prod.fst).getD []

def port (u : UrlParts) : List UInt8 := (u.authority.bind Prod.snd).getD []

/-- Each part goes up to the first delimiter behind it. In particular an authority goes up to the
first slash or to the end. -/
structure Delimited (u : UrlParts) : Prop where
  scheme : ':'.toUInt8 ∉ u.scheme
  host : ∀ a ∈ u.authority, ':'.toUInt8 ∉ a.1
  authority : ∀ a ∈ u.authority, '/'.toUInt8 ∉ a.text ∧
    (u.path ++ u.query = [] ∨ ∃ rest, u.path ++ u.query = '/'.toUInt8 :: rest)
  no_authority : u.authority = none → (u.path ++ u.query).take 2 ≠ ['/'.toUInt8, '/'.toUInt8]
  path : '?'.toUInt8 ∉ u.path

structure WellFormed (u : UrlParts) : Prop extends Delimited u where
  scheme_ne : u.scheme ≠ []
  authority_ne : ∀ a ∈ u.authority, a.text ≠ []
  no_userinfo : ∀ a ∈ u.authority, '@'.toUInt8 ∉ a.text
  digits : u.port.all isDigit = true
  path_start : u.path = [] ∨ u.path.head? = some '/'.toUInt8
  scheme_chars : u.scheme.all isUrlChar = true
  host_chars : u.host.all isUrlChar = true
  path_chars : u.path.all isUrlChar = true
  rest_chars : ∀ rest ∈ u.rest, rest.all isUrlChar = true

def ofTextAfter (scheme p : List UInt8) : UrlParts :=
  if p.take 2 = ['/'.toUInt8, '/'.toUInt8] then
    ⟨scheme, some (.ofText (upTo (p.drop 2) '/')), upTo (strchr (p.drop 2) '/') '?',
      partBehind (strchr (p.drop 2) '/') '?'⟩
  else ⟨scheme, none, upTo p '?', partBehind p '?'⟩

def ofText (url : List UInt8) : UrlParts := ofTextAfter (upTo url ':') (strchr url ':').tail

end UrlParts

/-! ## Finding the parts -/

theorem behind_partBehind (p : List UInt8) (c : Char) : behind c (partBehind p c) = strchr p c := by
  rcases strchr_cases p c with h | ⟨rest, h⟩ <;> rw [partBehind, h] <;> rfl

theorem behind_cases (c : Char) (part : Option (List UInt8)) :
    behind c part = [] ∨ ∃ rest, behind c part = c.toUInt8 :: rest := by
  cases part with
  | none => exact .inl rfl
  | some rest => exact .inr ⟨rest, rfl⟩

theorem upTo_append_behind (p : List UInt8) (c : Char) :
    upTo p c ++ behind c (partBehind p c) = p := by
  rw [behind_partBehind, upTo_append_strchr]

theorem upTo_behind {xs : List UInt8} {c : Char} (hxs : c.toUInt8 ∉ xs)
    (part : Option (List UInt8)) :
    upTo (xs ++ behind c part) c = xs ∧ partBehind (xs ++ behind c part) c = part := by
  obtain ⟨hup, hstr⟩ := upTo_append hxs (behind_cases c part)
  refine ⟨hup, ?_⟩
  rw [partBehind, hstr]
  cases part <;> rfl

namespace Authority

@[simp] theorem text_ofText (p : List UInt8) : (ofText p).text = p := upTo_append_behind p ':'

theorem ofText_text {a : Authority} (ha : ':'.toUInt8 ∉ a.1) : ofText a.text = a := by
  obtain ⟨hup, hbehind⟩ := upTo_behind ha a.2
  exact Prod.ext hup hbehind

end Authority

namespace UrlParts

theorem afterScheme_ofTextAfter (scheme p : List UInt8) :
    (ofTextAfter scheme p).afterScheme = p := by
  rw [ofTextAfter]
  split
  · rename_i hslashes
    simp only [afterScheme, query, Authority.text_ofText, upTo_append_behind, upTo_append_strchr]
    rw [← hslashes, List.take_append_drop]
  · exact upTo_append_behind p '?'

theorem length_path_query_le (u : UrlParts) :
    (u.path ++ u.query).length ≤ u.afterScheme.length := by
  rw [afterScheme]
  cases u.authority with
  | none => exact Nat.le_refl _
  | some a =>
      simp only [List.length_append]
      omega

theorem afterScheme_ofText (url : List UInt8) :
    (ofText url).afterScheme = (strchr url ':').tail := afterScheme_ofTextAfter _ _

theorem scheme_ofText (url : List UInt8) : (ofText url).scheme = upTo url ':' := by
  rw [ofText, ofTextAfter]
  split <;> rfl

theorem text_ofText {url : List UInt8} (hcolon : strchr url ':' ≠ []) :
    (ofText url).text = url := by
  obtain hnone | ⟨rest, hrest⟩ := strchr_cases url ':'
  · exact absurd hnone hcolon
  · rw [text, scheme_ofText, ofText, afterScheme_ofTextAfter, hrest, List.tail_cons, ← hrest,
      upTo_append_strchr]

theorem delimited_ofText (url : List UInt8) : (ofText url).Delimited := by
  rw [ofText, ofTextAfter]
  split
  · refine ⟨not_mem_upTo _ _, ?_, ?_, by simp, not_mem_upTo _ _⟩
    · rintro a ⟨⟩
      exact not_mem_upTo _ _
    · rintro a ⟨⟩
      rw [Authority.text_ofText, query, upTo_append_behind]
      exact ⟨not_mem_upTo _ _, strchr_cases _ _⟩
  · rename_i hslashes
    refine ⟨not_mem_upTo _ _, by simp, by simp, fun _ => ?_, not_mem_upTo _ _⟩
    rwa [query, upTo_append_behind]

theorem ofTextAfter_slashes (scheme p : List UInt8) :
    ofTextAfter scheme (['/'.toUInt8, '/'.toUInt8] ++ p) =
      ⟨scheme, some (.ofText (upTo p '/')), upTo (strchr p '/') '?',
        partBehind (strchr p '/') '?'⟩ :=
  if_pos rfl

theorem Delimited.ofTextAfter_afterScheme {u : UrlParts} (hu : u.Delimited) :
    ofTextAfter u.scheme u.afterScheme = u := by
  obtain ⟨hpath, hrest⟩ := upTo_behind hu.path u.rest
  cases hauthority : u.authority with
  | none =>
      have hafter : u.afterScheme = u.path ++ u.query := by rw [afterScheme, hauthority]
      rw [hafter, ofTextAfter, if_neg (hu.no_authority hauthority), query, hpath, hrest,
        ← hauthority]
  | some a =>
      have hafter : u.afterScheme =
          ['/'.toUInt8, '/'.toUInt8] ++ (a.text ++ (u.path ++ u.query)) := by
        rw [afterScheme, hauthority]
      obtain ⟨hslash, hend⟩ := hu.authority a hauthority
      obtain ⟨htext, hbehind⟩ := upTo_append hslash hend
      rw [hafter, ofTextAfter_slashes, htext, hbehind, query, hpath, hrest,
        Authority.ofText_text (hu.host a hauthority), ← hauthority]

theorem Delimited.ofText_text {u : UrlParts} (hu : u.Delimited) : ofText u.text = u := by
  obtain ⟨hscheme, hafter⟩ := upTo_append hu.scheme
    (.inr ⟨u.afterScheme, rfl⟩)
  rw [ofText, text, hscheme, hafter, List.tail_cons, hu.ofTextAfter_afterScheme]

theorem strchr_text_ne (u : UrlParts) : strchr u.text ':' ≠ [] := by
  have hmem : ':'.toUInt8 ∈ u.text := by simp [text]
  intro hnone
  have hall := upTo_append_strchr u.text ':'
  rw [hnone, List.append_nil] at hall
  rw [← hall] at hmem
  exact not_mem_upTo _ _ hmem

theorem not_mem_of_all {f : UInt8 → Bool} {bs : List UInt8} (hbs : bs.all f = true) {b : UInt8}
    (hb : f b = false) : b ∉ bs := by
  intro hmem
  rw [List.all_eq_true.mp hbs b hmem] at hb
  exact absurd hb (by decide)

end UrlParts

def HasForm (url : List UInt8) : Prop := ∃ u : UrlParts, u.WellFormed ∧ u.text = url

theorem hasForm_iff (url : List UInt8) :
    HasForm url ↔ strchr url ':' ≠ [] ∧ (UrlParts.ofText url).WellFormed := by
  constructor
  · rintro ⟨u, hu, rfl⟩
    rw [hu.toDelimited.ofText_text]
    exact ⟨u.strchr_text_ne, hu⟩
  · rintro ⟨hcolon, hu⟩
    exact ⟨_, hu, UrlParts.text_ofText hcolon⟩

end HttpAio

end PosixThreads
