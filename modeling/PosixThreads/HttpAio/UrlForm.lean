import PosixThreads.Collections.String.Compare
import PosixThreads.HttpAio.UrlParts

/-!
# The URLs that are parsed

A query is copied with its question mark, which is one of the characters that are looked for in the
end. So a URL is parsed if it has the form of a URL and no query. Its components give it back unless
its authority ends in a colon, which is in none of them.
-/

namespace PosixThreads

namespace StringT

theorem Holds.get_eq {str : StringT} {bs : List UInt8} (hholds : Holds str bs) {i : ℕ}
    (hi : i < bs.length) : str.get i = some bs[i] := by
  have hlen := hholds.vec_len
  have hcell : str.storage.storage[i]? = some (some bs[i]) := by
    obtain ⟨spare, hspare⟩ := hholds.storage_eq
    rw [hspare, List.getElem?_append_left (by simpa using hi)]
    simp [hi]
  have hin : i < str.storage.len := by omega
  simp [get, hin, hcell]

end StringT

namespace HttpAio

open StringT (Holds)

/-! ## Steps of the parser -/

def outOfMemory : Err := .common "failed to allocate a string" .memoryAllocationFailure

structure HasMemory (allocs : ℕ → Alloc) (n : ℕ) : Prop where
  allocs : ∀ i k, allocs i k = true
  fits : 2 * n + 3 ≤ ptrdiffMax

namespace Parse

variable {α β : Type} {memory : Prop}

/-- Unless memory is missing, there is a result if something holds, and an error if not. -/
def Spec (memory : Prop) (x : Parse α) (accepted : Prop) (Q : α → Prop) : Prop :=
  (¬memory ∧ x.run = some (.error outOfMemory)) ∨ (accepted ∧ ∃ a, x.run = some (.ok a) ∧ Q a) ∨
    (¬accepted ∧ ∃ error, x.run = some (.error error))

theorem Spec.bind {x : Parse α} {f : α → Parse β} {A B : Prop} {P : α → Prop} {Q : β → Prop}
    (hx : Spec memory x A P) (hf : ∀ a, P a → Spec memory (f a) B Q) :
    Spec memory (x >>= f) (A ∧ B) Q := by
  have herror : ∀ error, x.run = some (.error error) → (x >>= f).run = some (.error error) := by
    intro error h
    rw [ExceptT.run_bind, h]
    rfl
  have hok : ∀ a, x.run = some (.ok a) → (x >>= f).run = (f a).run := by
    intro a h
    rw [ExceptT.run_bind, h]
    rfl
  rcases hx with ⟨hnot, hmem⟩ | ⟨hA, a, ha, hP⟩ | ⟨hA, error, ha⟩
  · exact .inl ⟨hnot, herror _ hmem⟩
  · rcases hf a hP with ⟨hnot, hmem⟩ | ⟨hB, b, hb, hQ⟩ | ⟨hB, error, hb⟩
    · exact .inl ⟨hnot, (hok a ha).trans hmem⟩
    · exact .inr (.inl ⟨⟨hA, hB⟩, b, (hok a ha).trans hb, hQ⟩)
    · exact .inr (.inr ⟨fun h => hB h.2, error, (hok a ha).trans hb⟩)
  · exact .inr (.inr ⟨fun h => hA h.1, error, herror _ ha⟩)

theorem Spec.pure {a : α} {Q : α → Prop} (h : Q a) : Spec memory (Pure.pure a) True Q :=
  .inr (.inl ⟨trivial, a, rfl, h⟩)

theorem Spec.congr {x : Parse α} {A B : Prop} {Q : α → Prop} (hx : Spec memory x A Q)
    (h : A ↔ B) : Spec memory x B Q := by
  rwa [← propext h]

theorem check_spec (result : Bool) (context : String) :
    Spec memory (check result context) (result = true) fun _ => result = true := by
  cases result
  · exact .inr (.inr ⟨by simp, _, rfl⟩)
  · exact .inr (.inl ⟨rfl, (), rfl, rfl⟩)

theorem create_spec {result : Option (Except CommonErrorCode StringT)} {bs : List UInt8}
    (h : result = some (.error .memoryAllocationFailure) ∧ ¬memory ∨
      ∃ str, result = some (.ok str) ∧ Holds str bs) :
    Spec memory (create result) True fun str => Holds str bs := by
  rcases h with ⟨rfl, hnot⟩ | ⟨str, rfl, hholds⟩
  · exact .inl ⟨hnot, rfl⟩
  · exact .inr (.inl ⟨trivial, str, rfl, hholds⟩)

variable {allocs : ℕ → Alloc} {n : ℕ}

theorem fromSlice_spec (i : ℕ) {bs : List UInt8} (hle : bs.length ≤ n + 1) :
    Spec (HasMemory allocs n) (create (StringT.fromSlice (allocs i) bs)) True
      fun str => Holds str bs := by
  refine create_spec ((StringT.fromSlice_spec (allocs i) bs).imp_left fun ⟨hfail, hfits⟩ =>
    ⟨hfail, fun hmemory => ?_⟩)
  have hlt := hfits (hmemory.allocs i)
  have hmax := hmemory.fits
  omega

theorem new_spec (i : ℕ) :
    Spec (HasMemory allocs n) (create (StringT.new (allocs i 0))) True fun str => Holds str [] := by
  refine create_spec ((StringT.new_spec (allocs i 0)).imp_left fun ⟨hfail, hok⟩ =>
    ⟨hfail, fun hmemory => ?_⟩)
  rw [hmemory.allocs] at hok
  cases hok

end Parse

open Parse

theorem isValidUrlString_eq {str : StringT} {bs : List UInt8} (hholds : Holds str bs) :
    isValidUrlString str = some (bs.all isUrlChar) := by
  have hall : ∀ is : List ℕ, (∀ i ∈ is, i < bs.length) →
      is.allM (fun i => do return isUrlChar (← str.get i)) =
        some (is.all fun i => bs[i]?.all isUrlChar) := by
    intro is his
    induction is with
    | nil => rfl
    | cons i is ih =>
        have hi := his i List.mem_cons_self
        rw [List.allM_cons, ih fun j hj => his j (List.mem_cons_of_mem i hj), hholds.get_eq hi]
        simp only [List.all_cons, List.getElem?_eq_getElem hi, Option.all_some]
        cases hchar : isUrlChar bs[i] <;> simp [hchar]
  rw [isValidUrlString, hholds.len, hall _ fun i hi => List.mem_range.mp hi]
  congr 1
  rw [Bool.eq_iff_iff]
  simp only [List.all_eq_true, List.mem_range]
  constructor
  · intro h b hb
    obtain ⟨i, hi, rfl⟩ := List.getElem_of_mem hb
    simpa [List.getElem?_eq_getElem hi] using h i hi
  · intro h i hi
    simpa [List.getElem?_eq_getElem hi] using h _ (List.getElem_mem hi)

theorem validate_spec {memory : Prop} {str : StringT} {bs : List UInt8} (hholds : Holds str bs)
    (context : String) : Spec memory (validate str context) (bs.all isUrlChar = true)
      fun _ => bs.all isUrlChar = true := by
  have hlift : (validate str context).run = (check (bs.all isUrlChar) context).run := by
    rw [validate, isValidUrlString_eq hholds]
    rfl
  have hcheck : Spec memory (check (bs.all isUrlChar) context) _ _ := check_spec _ _
  rwa [Spec, ← hlift] at hcheck

/-! ## What is parsed -/

section Parsing

variable {allocs : ℕ → Alloc} {n : ℕ}

theorem length_upTo_le (p : List UInt8) (c : Char) : (upTo p c).length ≤ p.length :=
  (List.takeWhile_prefix _).length_le

theorem length_strchr_le (p : List UInt8) (c : Char) : (strchr p c).length ≤ p.length :=
  (List.dropWhile_suffix _).length_le

theorem parsePort_spec {colonChr : List UInt8} (hle : colonChr.length ≤ n) :
    Spec (HasMemory allocs n) (parsePort allocs colonChr) (colonChr.tail.all isDigit = true)
      fun port => Holds port colonChr.tail := by
  cases colonChr with
  | nil => exact (new_spec 2).congr (by simp)
  | cons colon digits =>
      have hdigits : digits.length ≤ n + 1 := by
        rw [List.length_cons] at hle
        omega
      exact ((check_spec _ _).bind fun _ _ => fromSlice_spec 2 hdigits).congr (by simp)

theorem parseAuthority_spec {p : List UInt8} (hle : p.length ≤ n) :
    Spec (HasMemory allocs n) (parseAuthority allocs p)
      (upTo p '/' ≠ [] ∧ '@'.toUInt8 ∉ upTo p '/' ∧
        (strchr (upTo p '/') ':').tail.all isDigit = true)
      fun result => Holds result.1 (upTo (upTo p '/') ':') ∧
        Holds result.2.1 (strchr (upTo p '/') ':').tail ∧ result.2.2 = strchr p '/' := by
  have hauthority := (length_upTo_le p '/').trans hle
  have hhost := (length_upTo_le (upTo p '/') ':').trans (hauthority.trans (Nat.le_succ n))
  have hport := (length_strchr_le (upTo p '/') ':').trans hauthority
  refine Spec.congr ((check_spec _ _).bind fun _ _ => (check_spec _ _).bind fun _ _ =>
    (fromSlice_spec 1 hhost).bind fun host hhost => (parsePort_spec hport).bind fun port hport =>
      Spec.pure ⟨hhost, hport, rfl⟩) ?_
  simp

theorem parseNoAuthority_spec (p : List UInt8) :
    Spec (HasMemory allocs n) (parseNoAuthority allocs p) True
      fun result => Holds result.1 [] ∧ Holds result.2.1 [] ∧ result.2.2 = p := by
  refine Spec.congr ((new_spec 1).bind fun host hhost => (new_spec 2).bind fun port hport =>
    Spec.pure ⟨hhost, hport, rfl⟩) ?_
  simp

theorem parseQuery_spec {p : List UInt8} (hle : p.length ≤ n) :
    Spec (HasMemory allocs n) (parseQuery allocs p) True fun query => Holds query p := by
  cases p with
  | nil => exact new_spec 4
  | cons c p => exact fromSlice_spec 4 (hle.trans (Nat.le_succ n))

def pathOrSlash (path : List UInt8) : List UInt8 := if path = [] then ['/'.toUInt8] else path

theorem parsePath_spec {p path : List UInt8} {rest : Option (List UInt8)} (hle : p.length ≤ n)
    (hpath : '?'.toUInt8 ∉ path) (hp : p = path ++ behind '?' rest) :
    Spec (HasMemory allocs n) (parsePath allocs p)
      (path ++ behind '?' rest = [] ∨ (path ++ behind '?' rest).head? = some '/'.toUInt8)
      fun result => Holds result.1 (pathOrSlash path) ∧ Holds result.2 (behind '?' rest) := by
  obtain ⟨hup, hstr⟩ := upTo_append hpath (behind_cases '?' rest)
  rw [← hp] at hup hstr ⊢
  cases p with
  | nil =>
      obtain ⟨rfl, hrest⟩ := List.append_eq_nil_iff.mp hp.symm
      rw [hrest]
      refine Spec.congr ((fromSlice_spec 3 (Nat.succ_le_succ (Nat.zero_le n))).bind
        fun path hpath => (new_spec 4).bind fun query hquery => Spec.pure ⟨hpath, hquery⟩) ?_
      simp
  | cons c p =>
      have hcopied : decide (c = '/'.toUInt8) = true → pathOrSlash path = upTo (c :: p) '?' := by
        intro hslash
        have hc : c = '/'.toUInt8 := by simpa using hslash
        have hne : path ≠ [] := by
          rw [← hup, hc, upTo, List.takeWhile_cons_of_pos (by decide)]
          exact List.cons_ne_nil _ _
        rw [pathOrSlash, if_neg hne, hup]
      have hcut := (length_upTo_le (c :: p) '?').trans (hle.trans (Nat.le_succ n))
      have hquery := (length_strchr_le (c :: p) '?').trans hle
      refine Spec.congr ((check_spec _ _).bind fun _ hslash =>
        (fromSlice_spec 3 hcut).bind fun path hpath =>
          (parseQuery_spec hquery).bind fun query hquery => Spec.pure ⟨?_, ?_⟩) ?_
      · rwa [hcopied hslash]
      · rwa [hstr] at hquery
      · simp

theorem parseHostAndPort_spec (scheme : List UInt8) {p : List UInt8} {u : UrlParts}
    (hle : p.length ≤ n) (hu : u = UrlParts.ofTextAfter scheme p) :
    Spec (HasMemory allocs n) (parseHostAndPort allocs p)
      ((∀ a ∈ u.authority, a.text ≠ [] ∧ '@'.toUInt8 ∉ a.text) ∧ u.port.all isDigit = true)
      fun result => Holds result.1 u.host ∧ Holds result.2.1 u.port ∧
        result.2.2 = u.path ++ u.query := by
  have htail : ∀ q : List UInt8, (partBehind q ':').getD [] = (strchr q ':').tail := by
    intro q
    rw [partBehind]
    cases strchr q ':' <;> rfl
  subst hu
  rw [UrlParts.ofTextAfter, parseHostAndPort]
  split
  · simp only [UrlParts.host, UrlParts.port, UrlParts.query, Option.map_some, Option.bind_some,
      Option.getD_some, upTo_append_behind, Authority.ofText, htail]
    refine (parseAuthority_spec ((List.drop_suffix 2 p).length_le.trans hle)).congr ?_
    rw [← and_assoc, and_congr_left_iff]
    intro _
    constructor
    · rintro h a ⟨⟩
      rwa [← Authority.text_ofText (upTo (p.drop 2) '/')] at h
    · intro h
      rw [← Authority.text_ofText (upTo (p.drop 2) '/')]
      exact h _ rfl
  · have hparse : Spec (HasMemory allocs n) (parseNoAuthority allocs p) _ _ :=
      parseNoAuthority_spec p
    simp only [UrlParts.host, UrlParts.port, UrlParts.query, Option.map_none, Option.bind_none,
      Option.getD_none, upTo_append_behind]
    exact hparse.congr (by simp)

theorem pathOrSlash_all (path : List UInt8) :
    (pathOrSlash path).all isUrlChar = path.all isUrlChar := by
  rw [pathOrSlash]
  split
  · rename_i hnil
    rw [hnil]
    decide
  · rfl

/-- The result has the components of the URL, with a slash for an absent path. -/
structure Gives (result : UrlT) (u : UrlParts) : Prop where
  scheme : Holds result.scheme u.scheme
  host : Holds result.host u.host
  port : Holds result.port u.port
  path : Holds result.path (pathOrSlash u.path)
  query : Holds result.query u.query

/-- What is looked at is that the parts are well-formed, and that there is no query. -/
theorem accepted_iff {u : UrlParts} (hu : u.Delimited) :
    (u.scheme ≠ [] ∧ ((∀ a ∈ u.authority, a.text ≠ [] ∧ '@'.toUInt8 ∉ a.text) ∧
      u.port.all isDigit = true) ∧
      (u.path ++ u.query = [] ∨ (u.path ++ u.query).head? = some '/'.toUInt8) ∧
      u.scheme.all isUrlChar = true ∧ u.host.all isUrlChar = true ∧
      u.path.all isUrlChar = true ∧ u.query.all isUrlChar = true) ↔
      u.WellFormed ∧ u.rest = none := by
  constructor
  · rintro ⟨hscheme, ⟨hauthority, hdigits⟩, hstart, hchars, hhost, hpath, hquery⟩
    have hrest : u.rest = none := by
      cases hrest : u.rest with
      | none => rfl
      | some rest =>
          rw [UrlParts.query, hrest, behind, List.all_cons] at hquery
          exact absurd (Bool.and_eq_true_iff.mp hquery).1 (by decide)
    have hnil : u.query = [] := by rw [UrlParts.query, hrest, behind]
    rw [hnil, List.append_nil] at hstart
    refine ⟨⟨hu, hscheme, fun a ha => (hauthority a ha).1, fun a ha => (hauthority a ha).2,
      hdigits, hstart, hchars, hhost, hpath, ?_⟩, hrest⟩
    rw [hrest]
    simp
  · rintro ⟨hwf, hrest⟩
    have hnil : u.query = [] := by rw [UrlParts.query, hrest, behind]
    rw [hnil, List.append_nil]
    exact ⟨hwf.scheme_ne, ⟨fun a ha => ⟨hwf.authority_ne a ha, hwf.no_userinfo a ha⟩, hwf.digits⟩,
      hwf.path_start, hwf.scheme_chars, hwf.host_chars, hwf.path_chars, rfl⟩

theorem validateAll_spec {r : UrlT} {u : UrlParts} (hgives : Gives r u) :
    Spec (HasMemory allocs n) (validateAll r)
      (u.scheme.all isUrlChar = true ∧ u.host.all isUrlChar = true ∧
        u.path.all isUrlChar = true ∧ u.query.all isUrlChar = true) fun r => Gives r u := by
  refine Spec.congr ((validate_spec hgives.scheme _).bind fun _ _ =>
    (validate_spec hgives.host _).bind fun _ _ => (validate_spec hgives.path _).bind fun _ _ =>
      (validate_spec hgives.query _).bind fun _ _ => Spec.pure hgives) ?_
  rw [pathOrSlash_all, and_true]

theorem parseUrl_spec (allocs : ℕ → Alloc) (url : List UInt8) :
    Spec (HasMemory allocs url.length) (parseUrl allocs url)
      (strchr url ':' ≠ [] ∧ (UrlParts.ofText url).WellFormed ∧ (UrlParts.ofText url).rest = none)
      fun result => Gives result (UrlParts.ofText url) := by
  have hu := UrlParts.delimited_ofText url
  have hscheme := UrlParts.scheme_ofText url
  have hcut := (length_upTo_le url ':').trans (Nat.le_succ url.length)
  have hbehind : (strchr url ':').tail.length ≤ url.length := by
    rw [List.length_tail]
    exact (Nat.sub_le _ _).trans (length_strchr_le url ':')
  have hafter : Spec (HasMemory allocs url.length)
      (parseHostAndPort allocs (strchr url ':').tail) _ _ :=
    parseHostAndPort_spec (upTo url ':') hbehind rfl
  have hrest := (UrlParts.ofText url).length_path_query_le
  rw [← UrlParts.ofText] at hafter
  rw [UrlParts.afterScheme_ofText] at hrest
  rw [← accepted_iff hu]
  generalize UrlParts.ofText url = u at hu hscheme hafter hrest ⊢
  refine Spec.congr ((check_spec _ _).bind fun _ _ => (fromSlice_spec 0 hcut).bind fun scheme hs =>
    hafter.bind fun _ hhost =>
      (parsePath_spec (hhost.2.2 ▸ hrest.trans hbehind) hu.path hhost.2.2).bind fun _ hpath =>
        validateAll_spec ⟨?_, hhost.1, hhost.2.1, hpath.1, hpath.2⟩) ?_
  · rwa [hscheme]
  · rw [← hscheme, UrlParts.query, true_and, Bool.and_eq_true, decide_eq_true_eq,
      decide_eq_true_eq, and_assoc]

end Parsing

/-! ## The URLs that are parsed -/

/-- The components of a URL put together. Without a host and a port there is no authority, and
without a port there is no colon in front of it. -/
def compose (scheme host port path query : List UInt8) : List UInt8 :=
  scheme ++ ':'.toUInt8 ::
    ((if host = [] ∧ port = [] then [] else
      ['/'.toUInt8, '/'.toUInt8] ++ (host ++ if port = [] then [] else ':'.toUInt8 :: port)) ++
    (path ++ query))

/-- The components of the result, where a slash may stand for an absent path, make up the URL. -/
def GivesBack (result : UrlT) (url : List UInt8) : Prop :=
  ∃ scheme host port path query, Holds result.scheme scheme ∧ Holds result.host host ∧
    Holds result.port port ∧ Holds result.path (pathOrSlash path) ∧ Holds result.query query ∧
    compose scheme host port path query = url

/-- The authority ends in a colon. -/
def UrlParts.EmptyPort (u : UrlParts) : Prop := ∃ host, u.authority = some (host, some [])

section Compose

variable {u : UrlParts}

theorem UrlParts.compose_eq_text (hu : u.WellFormed) (hport : ¬u.EmptyPort) :
    compose u.scheme u.host u.port u.path u.query = u.text := by
  rw [compose, text, afterScheme, host, UrlParts.port]
  cases hauthority : u.authority with
  | none => simp
  | some a =>
      obtain ⟨host, port⟩ := a
      have hne := hu.authority_ne _ hauthority
      cases port with
      | none =>
          have hhost : host ≠ [] := by simpa [Authority.text, behind] using hne
          simp [hhost, Authority.text, behind]
      | some digits =>
          have hdigits : digits ≠ [] := by
            rintro rfl
            exact hport ⟨host, hauthority⟩
          simp [hdigits, Authority.text, behind]

/-- The colon is in none of the components. -/
theorem UrlParts.EmptyPort.compose_ne_text (hport : u.EmptyPort) (hu : u.WellFormed)
    {path : List UInt8} (hpath : pathOrSlash path = pathOrSlash u.path) :
    compose u.scheme u.host u.port path u.query ≠ u.text := by
  obtain ⟨host, hauthority⟩ := hport
  have hstart : path = [] ∨ path.head? = some '/'.toUInt8 := by
    by_cases hnil : path = []
    · exact .inl hnil
    · right
      rw [pathOrSlash, if_neg hnil, pathOrSlash] at hpath
      rw [hpath]
      split
      · rfl
      · exact hu.path_start.resolve_left ‹_›
  have hlength : path.length ≤ u.path.length + 1 := by
    have hlen := congrArg List.length hpath
    rw [pathOrSlash, pathOrSlash] at hlen
    split_ifs at hlen with hnil hnil' <;> simp_all
  intro heq
  rw [compose, text, afterScheme, UrlParts.host, UrlParts.port, hauthority] at heq
  simp only [Option.map_some, Option.bind_some, Option.getD_some, and_true, if_true,
    List.append_nil, Authority.text, behind, List.append_cancel_left_eq, List.cons.injEq,
    true_and, ← List.append_assoc, List.append_cancel_right_eq] at heq
  by_cases hhost : host = []
  · rw [if_pos hhost, hhost] at heq
    have hlen := congrArg List.length heq
    simp at hlen
    omega
  · rw [if_neg hhost] at heq
    simp only [List.append_assoc, List.append_cancel_left_eq] at heq
    rw [heq] at hstart
    simp only [List.singleton_append, reduceCtorEq, List.head?_cons, Option.some.injEq,
      false_or] at hstart
    exact absurd hstart (by decide)

end Compose

/-- If memory is there, exactly the strings that have the form of a URL are parsed, and the
components of the result make up the string; this is so if and only if the string is not a URL that
has a query or an empty port. -/
theorem parseUrl_iff_hasForm_iff {allocs : ℕ → Alloc} (hmemory : ∀ i k, allocs i k = true)
    {url : List UInt8} (hlength : 2 * url.length + 3 ≤ ptrdiffMax) :
    (((∃ result, (parseUrl allocs url).run = some (.ok result)) ↔ HasForm url) ∧
      ∀ result, (parseUrl allocs url).run = some (.ok result) → GivesBack result url) ↔
    ¬∃ u : UrlParts, u.WellFormed ∧ u.text = url ∧ (u.rest ≠ none ∨ u.EmptyPort) := by
  have hunique : ∀ u : UrlParts, u.WellFormed → u.text = url → UrlParts.ofText url = u := by
    rintro u hu rfl
    exact hu.toDelimited.ofText_text
  rcases parseUrl_spec allocs url with ⟨hnot, -⟩ | ⟨⟨hcolon, hu, hrest⟩, result, hrun, hgives⟩ |
    ⟨hrejected, error, hrun⟩
  · exact absurd ⟨hmemory, hlength⟩ hnot
  · -- There is a result, and there is no query.
    have htext := UrlParts.text_ofText hcolon
    have hiff : (∃ result, (parseUrl allocs url).run = some (.ok result)) ↔ HasForm url :=
      iff_of_true ⟨result, hrun⟩ ⟨_, hu, htext⟩
    rw [and_iff_right hiff]
    constructor
    · rintro hback ⟨u, hu', htext', hbad⟩
      obtain rfl := hunique u hu' htext'
      obtain ⟨scheme, host, port, path, query, hs, hh, hp, hpath, hq, heq⟩ := hback result hrun
      rw [← hs.bytes_eq, ← hh.bytes_eq, ← hp.bytes_eq, ← hq.bytes_eq, hgives.scheme.bytes_eq,
        hgives.host.bytes_eq, hgives.port.bytes_eq, hgives.query.bytes_eq] at heq
      refine (hbad.resolve_left fun h => h hrest).compose_ne_text hu' ?_ (heq.trans htext.symm)
      rw [← hpath.bytes_eq, hgives.path.bytes_eq]
    · intro hgood result' hrun'
      obtain rfl : result = result' := by
        rw [hrun] at hrun'
        exact Except.ok.inj (Option.some.inj hrun')
      have hport : ¬(UrlParts.ofText url).EmptyPort := fun h => hgood ⟨_, hu, htext, .inr h⟩
      exact ⟨_, _, _, _, _, hgives.scheme, hgives.host, hgives.port, hgives.path, hgives.query,
        (UrlParts.compose_eq_text hu hport).trans htext⟩
  · -- There is an error. A string that has the form has a query then.
    have hnone : ∀ result, (parseUrl allocs url).run ≠ some (.ok result) := by
      intro result
      rw [hrun]
      rintro ⟨⟩
    constructor
    · rintro ⟨hiff, -⟩ ⟨u, hu, htext, -⟩
      obtain ⟨result, hresult⟩ := hiff.mpr ⟨u, hu, htext⟩
      exact hnone result hresult
    · intro hgood
      have hform : ¬HasForm url := by
        intro hform
        obtain ⟨hcolon, hu⟩ := (hasForm_iff url).mp hform
        have hrest : (UrlParts.ofText url).rest ≠ none := fun hrest => hrejected ⟨hcolon, hu, hrest⟩
        exact hgood ⟨_, hu, UrlParts.text_ofText hcolon, .inl hrest⟩
      exact ⟨iff_of_false (fun ⟨result, hresult⟩ => hnone result hresult) hform,
        fun result hresult => absurd hresult (hnone result)⟩

theorem parseUrl_iff_hasForm_iff_plain :
    (((∃ result, (parseUrl (fun _ => allocAll) ("http://a:1/b".toList.map Char.toUInt8)).run =
        some (.ok result)) ↔ HasForm ("http://a:1/b".toList.map Char.toUInt8)) ∧
      ∀ result, (parseUrl (fun _ => allocAll) ("http://a:1/b".toList.map Char.toUInt8)).run =
        some (.ok result) → GivesBack result ("http://a:1/b".toList.map Char.toUInt8)) ↔
    ¬∃ u : UrlParts, u.WellFormed ∧ u.text = "http://a:1/b".toList.map Char.toUInt8 ∧
      (u.rest ≠ none ∨ u.EmptyPort) :=
  parseUrl_iff_hasForm_iff (fun _ _ => rfl) (by decide)

/-- A query is rejected for its question mark. -/
theorem not_parseUrl_query :
    (parseUrl (fun _ => allocAll) ("http://a/b?x".toList.map Char.toUInt8)).run =
        some (.error (.bool "invalid URL: unexpected characters in the host")) ∧
      ¬((∃ result, (parseUrl (fun _ => allocAll) ("http://a/b?x".toList.map Char.toUInt8)).run =
        some (.ok result)) ↔ HasForm ("http://a/b?x".toList.map Char.toUInt8)) := by
  have hrun : (parseUrl (fun _ => allocAll) ("http://a/b?x".toList.map Char.toUInt8)).run =
      some (.error (.bool "invalid URL: unexpected characters in the host")) := by
    decide +kernel
  have hform : HasForm ("http://a/b?x".toList.map Char.toUInt8) := by
    refine ⟨⟨['h', 't', 't', 'p'].map Char.toUInt8, some (['a'.toUInt8], none),
      ['/', 'b'].map Char.toUInt8, some ['x'.toUInt8]⟩, ⟨⟨by decide, ?_, ?_, by simp, by decide⟩,
      by decide, ?_, ?_, by decide, by decide, by decide, by decide, by decide, ?_⟩, by decide⟩
    all_goals rintro _ ⟨⟩
    · decide
    · exact ⟨by decide, .inr ⟨_, rfl⟩⟩
    · decide
    · decide
    · decide
  refine ⟨hrun, fun hiff => ?_⟩
  obtain ⟨result, hresult⟩ := hiff.mpr hform
  rw [hrun] at hresult
  exact absurd hresult (by simp)

end HttpAio

end PosixThreads
