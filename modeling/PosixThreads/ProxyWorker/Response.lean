import Mathlib.Algebra.Group.Nat.Defs
import PosixThreads.ProxyWorker.Delivery

/-!
# Answers of servers

`readServerResponse` puts a part of a response where the clients find it, and only then does it look
whether the part is any good. If it is not then the caller deletes the part, which stays where it
is. The worker proxy and the single-threaded proxy do the same here, but the one has a flag for
responses with a `Content-Length` and the other one takes the length to be unknown if it is zero.

What the parser says about some data is a parameter, and so is which sizes the memory has room for.
A call that does not return, because an assertion fails, an exception is thrown or a null pointer is
followed, is `none`. The log is left out.
-/

namespace PosixThreads

/-- `io::Message`, without the character that ends the data. -/
structure Message where
  data : List UInt8
  capacity : ℕ
  capacity_pos : 0 < capacity
  deriving DecidableEq, Repr

/-- A message that is known by its address, too. -/
structure Part extends Message where
  addr : ℕ
  deriving DecidableEq, Repr

inductive ParseResult
  | completed
  | incompleted
  | error
  deriving DecidableEq, Repr

/-- `Response`, with the size of its content. -/
structure Response where
  headers : List (String × String)
  contentSize : ℕ
  statusCode : ℕ
  deriving DecidableEq, Repr

/-- `HttpResponseParser::parse`. -/
abbrev ResponseParser := List UInt8 → ParseResult × Response

def Response.contentLength? (response : Response) : Option String :=
  (response.headers.find? (·.1 = "Content-Length")).map Prod.snd

/-- `std::isspace`. -/
def isSpaceChar (c : Char) : Bool := c == ' ' || 9 ≤ c.toNat && c.toNat ≤ 13

/-- `std::stoul`. It is `none` where an exception is thrown. -/
def stoul (str : String) : Option ℕ :=
  let text := str.toList.dropWhile isSpaceChar
  let (negative, text) := match text with
    | '-' :: text => (true, text)
    | '+' :: text => (false, text)
    | text => (false, text)
  let digits := text.takeWhile Char.isDigit
  let value := digits.foldl (fun value c => 10 * value + (c.toNat - '0'.toNat)) 0
  if digits.isEmpty || 2 ^ 64 ≤ value then none
  else some (if negative then (2 ^ 64 - value) % 2 ^ 64 else value)

/-! ## Messages -/

namespace Message

/-- A message with twice the memory. -/
def double (a : Message) : Message :=
  { a with
    capacity := 2 * a.capacity
    capacity_pos := Nat.mul_pos Nat.two_pos a.capacity_pos }

/-- The loop of `AppendMsg`. The capacity is doubled even if `realloc` fails. -/
def grow (memory : ℕ → Bool) (required : ℕ) (a : Message) : Bool × Message :=
  if a.capacity < required then
    if memory a.double.capacity then a.double.grow memory required else (false, a.double)
  else (true, a)
termination_by required - a.capacity
decreasing_by
  have := a.capacity_pos
  show required - 2 * a.capacity < required - a.capacity
  omega

def appendMsg (memory : ℕ → Bool) (a b : Message) : Bool × Message :=
  let (added, grown) := a.grow memory (a.data.length + b.data.length + 1)
  if added then (true, { grown with data := a.data ++ b.data }) else (false, grown)

/-- `copy`. The answer of `malloc` is not looked at. -/
def copy (memory : ℕ → Bool) (prev : Message) : Option Message := do
  assertThat (memory prev.capacity)
  return prev

/-- There is room for all the sizes on the way to the one that is required. -/
def HasRoom (memory : ℕ → Bool) (required : ℕ) (a : Message) : Prop :=
  ∀ k, a.capacity * 2 ^ k < required → memory (a.double.capacity * 2 ^ k) = true

variable {memory : ℕ → Bool} {required : ℕ} {a : Message}

@[simp] theorem data_double (a : Message) : a.double.data = a.data := rfl

theorem hasRoom_of_le (hle : required ≤ a.capacity) : a.HasRoom memory required := by
  intro k hk
  have := Nat.le_mul_of_pos_right a.capacity (Nat.two_pow_pos k)
  omega

theorem hasRoom_iff_double (hlt : a.capacity < required) :
    a.HasRoom memory required ↔
      memory a.double.capacity = true ∧ a.double.HasRoom memory required := by
  have hshift : ∀ (b : Message) k, b.double.capacity * 2 ^ k = b.capacity * 2 ^ (k + 1) := by
    intro b k
    rw [Nat.pow_succ', ← Nat.mul_assoc, Nat.mul_comm b.capacity 2, double]
  constructor
  · refine fun hroom => ⟨by simpa using hroom 0 (by simpa using hlt), fun k hk => ?_⟩
    rw [hshift a.double]
    exact hroom (k + 1) (by rwa [← hshift])
  · rintro ⟨hfirst, hroom⟩ k hk
    cases k with
    | zero => simpa using hfirst
    | succ k =>
        rw [← hshift a.double]
        exact hroom k (by rwa [hshift])

theorem grow_spec (memory : ℕ → Bool) (required : ℕ) (a : Message) :
    ((a.grow memory required).1 = true ↔ a.HasRoom memory required) ∧
      (a.grow memory required).2.data = a.data := by
  fun_induction grow memory required a with
  | case1 a hlt hmem ih =>
      rw [hasRoom_iff_double hlt, ih.1]
      exact ⟨(and_iff_right hmem).symm, ih.2⟩
  | case2 a hlt hmem => simp [hasRoom_iff_double hlt, hmem]
  | case3 a hle => simp [hasRoom_of_le (Nat.le_of_not_lt hle)]

theorem appendMsg_spec (memory : ℕ → Bool) (a b : Message) :
    ((a.appendMsg memory b).1 = true ↔
        a.HasRoom memory (a.data.length + b.data.length + 1)) ∧
      (a.appendMsg memory b).2.data =
        if (a.appendMsg memory b).1 then a.data ++ b.data else a.data := by
  obtain ⟨hroom, hdata⟩ := grow_spec memory (a.data.length + b.data.length + 1) a
  rw [← hroom]
  simp only [appendMsg]
  split
  · next heq => simp [heq]
  · next heq => simp [heq, hdata]

end Message

/-- The length of a response that is not complete, if its header says so: what the header declares,
and what the response has in front of the content. -/
def Response.expectedLength (response : Response) (full : Message) : Option (Option ℕ) :=
  match response.contentLength? with
  | none => some none
  | some value => do
      let contentLength ← stoul value
      assertThat (response.contentSize < full.data.length)
      let sub := full.data.length - response.contentSize
      return some ((contentLength + sub) % 2 ^ 64)

/-! ## The two proxies -/

structure Trace where
  parts : List Part
  curLength : ℕ
  fullData : Option Message
  deriving DecidableEq, Repr

/-- How `readServerResponse` ends: with a return code, with a resource, after it has notified the
subscribers or not, and after it has deleted the part or not. `stored` is whether the resource stays
in the cache. -/
structure Received (R : Type) where
  code : ℤ
  notified : Bool
  deleted : Bool
  stored : Bool
  resource : R
  deriving Repr

/-- The message in which a response is looked for, and the full data: the new part is added to
the full data or becomes the full data. The first component is whether this has been possible. -/
def addToFullData (memory : ℕ → Bool) (part : Part) :
    Option Message → Option (Bool × Message × Message)
  | none => do
      let fullData ← part.copy memory
      return (true, part.toMessage, fullData)
  | some fullData =>
      let (added, fullData) := fullData.appendMsg memory part.toMessage
      return (added, fullData, fullData)

/-- `readServerResponse`, given what it does with the resource. A resource that is not in the cache
is put there first. -/
def readServerResponse {R : Type} (receive : R → Part → Option (Received R)) (new : R)
    (cache : String → Option R) (name : String) (part : Part) :
    Option (Received R × (String → Option R)) := do
  let received ← receive ((cache name).getD new) part
  let resource := if received.stored then some received.resource else none
  return (received, Function.update cache name resource)

/-- `readMessageFrom` for the message of a server, which is deleted if it is rejected. -/
def readMessageFrom {R : Type} (receive : R → Part → Option (Received R)) (new : R)
    (cache : String → Option R) (name : String) (part : Part) :
    Option (Received R × (String → Option R)) := do
  let (received, cache) ← readServerResponse receive new cache name part
  return if received.code = StatusCode.fail then ({ received with deleted := true }, cache)
    else (received, cache)

def NoTrace {R : Type} (trace : R → Trace) (receive : R → Part → Option (Received R)) (new : R)
    (cache : String → Option R) (name : String) (part : Part) : Prop :=
  ∀ received cache', readMessageFrom receive new cache name part = some (received, cache') →
    received.code = StatusCode.fail →
    trace ((cache' name).getD new) = trace ((cache name).getD new) ∧
      (received.deleted = true → part ∉ (trace ((cache' name).getD new)).parts)

/-- `ResourceInfo` of the worker proxy, complete. -/
structure WorkerResource extends ResourceInfo Part where
  fullData : Option Message
  curLength : ℕ
  contentLength : ℕ
  hasContentLength : Bool
  deriving DecidableEq, Repr

namespace WorkerResource

def new : WorkerResource := ⟨.new, none, 0, 0, false⟩

def trace (res : WorkerResource) : Trace := ⟨res.parts, res.curLength, res.fullData⟩

/-- The end of `readServerResponse` for a response that has been parsed. `full` is the message that
the parser was given. -/
def afterParse (res : WorkerResource) (full : Message) :
    ParseResult × Response → Option (Received WorkerResource)
  | (.error, _) => return ⟨StatusCode.fail, false, false, true, res⟩
  | (.incompleted, response) => do
      let length? ← response.expectedLength full
      assertThat !res.completed
      match length? with
      | none => return ⟨StatusCode.success, true, false, true, res⟩
      | some contentLength =>
          return ⟨StatusCode.success, true, false, true, { res with
            contentLength := contentLength
            hasContentLength := true }⟩
  | (.completed, _) => do
      let _ ← res.fullData
      return ⟨StatusCode.success, true, false, true, { res with
        completed := true
        fullData := none }⟩

/-- `readServerResponse` behind the place where the part has been added to the full data. -/
def account (parse : ResponseParser) (res : WorkerResource) (full : Message) (part : Part) :
    Option (Received WorkerResource) := do
  let res := { res with curLength := res.curLength + part.data.length }
  assertThat !(res.hasContentLength && decide (res.contentLength < res.curLength))
  if res.hasContentLength && decide (res.curLength < res.contentLength) then
    return ⟨StatusCode.success, true, false, true, res⟩
  else if res.hasContentLength && res.contentLength == res.curLength then
    return ⟨StatusCode.success, true, false, true, { res with
      completed := true
      fullData := none }⟩
  else res.afterParse full (parse full.data)

def receive (parse : ResponseParser) (memory : ℕ → Bool) (res : WorkerResource) (part : Part) :
    Option (Received WorkerResource) :=
  if res.completed then return ⟨StatusCode.success, false, true, true, res⟩
  else
    let res := { res with parts := res.parts ++ [part] }
    if res.hasContentLength then res.account parse part.toMessage part
    else do
      let (added, full, fullData) ← addToFullData memory part res.fullData
      let res := { res with fullData := some fullData }
      if added then res.account parse full part
      else return ⟨StatusCode.fail, false, false, true, res⟩

end WorkerResource

namespace HttpProxy

/-- `ResourceInfo` of the single-threaded proxy, without the subscribers. -/
structure ResourceInfo where
  completed : Bool
  parts : List Part
  fullData : Option Message
  currentLength : ℕ
  contentLength : ℕ
  deriving DecidableEq, Repr

namespace ResourceInfo

def new : ResourceInfo := ⟨false, [], none, 0, 0⟩

def trace (resource : ResourceInfo) : Trace :=
  ⟨resource.parts, resource.currentLength, resource.fullData⟩

/-- The end of `readServerResponse` for a response that has been parsed. `full` is the message that
the parser was given. -/
def afterParse (resource : ResourceInfo) (full : Message) :
    ParseResult × Response → Option (Received ResourceInfo)
  | (.error, _) => return ⟨StatusCode.fail, false, false, true, resource⟩
  | (.incompleted, response) => do
      let length? ← response.expectedLength full
      assertThat !resource.completed
      return ⟨StatusCode.success, true, false, true, { resource with
        contentLength := length?.getD resource.contentLength }⟩
  | (.completed, response) => do
      let _ ← resource.fullData
      -- The parts of a resource that is not stored stay with the clients.
      return ⟨StatusCode.success, true, false, response.statusCode == 200, { resource with
        completed := true
        fullData := none }⟩

/-- `readServerResponse` behind the place where the part has been added to the full data. -/
def account (parse : ResponseParser) (resource : ResourceInfo) (full : Message) (part : Part) :
    Option (Received ResourceInfo) :=
  let resource := { resource with currentLength := resource.currentLength + part.data.length }
  if resource.currentLength < resource.contentLength then
    return ⟨StatusCode.success, true, false, true, resource⟩
  else if resource.contentLength == resource.currentLength &&
      decide (0 < resource.contentLength) then
    return ⟨StatusCode.success, true, false, true, { resource with
      completed := true
      fullData := none }⟩
  else resource.afterParse full (parse full.data)

/-- `readServerResponse` for a resource. -/
def receive (parse : ResponseParser) (memory : ℕ → Bool) (resource : ResourceInfo) (part : Part) :
    Option (Received ResourceInfo) :=
  let resource := { resource with parts := resource.parts ++ [part] }
  if resource.contentLength == 0 then do
    let (added, full, fullData) ← addToFullData memory part resource.fullData
    let resource := { resource with fullData := some fullData }
    if added then resource.account parse full part
    else return ⟨StatusCode.fail, false, false, true, resource⟩
  else resource.account parse part.toMessage part

end ResourceInfo

end HttpProxy

/-! ## Rejected parts -/

section Rejected

variable {parse : ResponseParser} {memory : ℕ → Bool} {part : Part} {full fullData : Message}

/-- The part cannot be added to the full data, or else they are no response then. -/
def Refused (parse : ResponseParser) (memory : ℕ → Bool) (part : Part) : Option Message → Prop
  | none => memory part.capacity = true ∧ (parse part.data).1 = .error
  | some fullData =>
      fullData.HasRoom memory (fullData.data.length + part.data.length + 1) →
        (parse (fullData.data ++ part.data)).1 = .error

theorem refused_iff_of_add {before : Option Message} {added : Bool}
    (hadd : addToFullData memory part before = some (added, full, fullData)) :
    Refused parse memory part before ↔ (added = true → (parse full.data).1 = .error) := by
  cases before with
  | none =>
      simp only [addToFullData, Message.copy, Option.bind_eq_bind, Option.pure_def] at hadd
      cases hmem : memory part.capacity with
      | false => simp [hmem] at hadd
      | true =>
          simp only [hmem, assertThat_true, Option.bind_some, Option.some.injEq,
            Prod.mk.injEq] at hadd
          obtain ⟨rfl, rfl, -⟩ := hadd
          simp [Refused, hmem]
  | some before =>
      obtain ⟨hroom, hdata⟩ := before.appendMsg_spec memory part.toMessage
      simp only [addToFullData, Option.pure_def, Option.some.injEq, Prod.mk.injEq] at hadd
      obtain ⟨hadded, hfull, -⟩ := hadd
      rw [hadded, hfull] at hdata
      rw [hadded] at hroom
      simp only [Refused, ← hroom]
      refine forall_congr' fun htrue => ?_
      rw [hdata, if_pos htrue]

/-- A copy that fails is not noticed, so it does not reject the part. -/
theorem Refused.add {before : Option Message} (hrefused : Refused parse memory part before) :
    ∃ added full fullData, addToFullData memory part before = some (added, full, fullData) := by
  cases before with
  | none => exact ⟨true, part.toMessage, part.toMessage, by
      simp [addToFullData, Message.copy, hrefused.1]⟩
  | some before => exact ⟨_, _, _, rfl⟩

namespace WorkerResource

variable {res : WorkerResource} {received : Received WorkerResource}

def Rejects (parse : ResponseParser) (memory : ℕ → Bool) (res : WorkerResource) (part : Part) :
    Prop :=
  res.completed = false ∧ res.hasContentLength = false ∧ Refused parse memory part res.fullData

/-- What `afterParse` does to the clients' view of the resource, and when it fails. -/
theorem afterParse_spec {out : ParseResult × Response}
    (h : res.afterParse full out = some received) :
    (received.code = StatusCode.fail ↔ out.1 = .error) ∧ received.stored = true ∧
      received.resource.toResourceInfo =
        { res.toResourceInfo with completed := received.resource.completed } := by
  obtain ⟨result, response⟩ := out
  cases result with
  | error =>
      simp only [afterParse, Option.pure_def, Option.some.injEq] at h
      subst h
      exact ⟨by simp, rfl, rfl⟩
  | incompleted =>
      simp only [afterParse, Option.bind_eq_bind, Option.bind_eq_some_iff, Option.pure_def] at h
      obtain ⟨length?, -, -, -, h⟩ := h
      cases length? with
      | none =>
          obtain rfl := Option.some.inj h
          exact ⟨by simp [StatusCode.fail, StatusCode.success], rfl, rfl⟩
      | some contentLength =>
          obtain rfl := Option.some.inj h
          exact ⟨by simp [StatusCode.fail, StatusCode.success], rfl, rfl⟩
  | completed =>
      simp only [afterParse, Option.bind_eq_bind, Option.bind_eq_some_iff, Option.pure_def,
        Option.some.injEq] at h
      obtain ⟨-, -, rfl⟩ := h
      exact ⟨by simp [StatusCode.fail, StatusCode.success], rfl, rfl⟩

theorem afterParse_of_error {out : ParseResult × Response} (herr : out.1 = .error) :
    (res.afterParse full out).isSome = true := by
  obtain ⟨result, response⟩ := out
  cases herr
  rfl

theorem account_spec (h : res.account parse full part = some received) :
    (received.code = StatusCode.fail ↔
        res.hasContentLength = false ∧ (parse full.data).1 = .error) ∧
      received.stored = true ∧ received.resource.toResourceInfo =
        { res.toResourceInfo with completed := received.resource.completed } := by
  simp only [account, Option.bind_eq_bind, Option.bind_eq_some_iff] at h
  obtain ⟨_, hassert, h⟩ := h
  split at h
  · next hlt =>
      simp only [Option.pure_def, Option.some.injEq] at h
      subst h
      simp only [Bool.and_eq_true] at hlt
      exact ⟨by simp [StatusCode.fail, StatusCode.success, hlt.1], rfl, rfl⟩
  · split at h
    · next heq =>
        simp only [Option.pure_def, Option.some.injEq] at h
        subst h
        simp only [Bool.and_eq_true] at heq
        exact ⟨by simp [StatusCode.fail, StatusCode.success, heq.1], rfl, rfl⟩
    · next hlt heq =>
        obtain ⟨hcode, hstored, hinfo⟩ := afterParse_spec h
        have hno : res.hasContentLength = false := by
          cases hhas : res.hasContentLength with
          | false => rfl
          | true =>
              simp only [hhas, Bool.true_and, decide_eq_true_eq, beq_iff_eq] at hlt heq
              simp [hhas, assertThat] at hassert
              omega
        exact ⟨by simp [hcode, hno], hstored, hinfo⟩

theorem account_of_error (hno : res.hasContentLength = false)
    (herr : (parse full.data).1 = .error) :
    (res.account parse full part).isSome = true := by
  simp only [account, hno, Bool.false_and, Bool.not_false, assertThat_true, Bool.false_eq_true,
    if_false, Option.bind_eq_bind, Option.bind_some]
  exact afterParse_of_error herr

theorem receive_spec (h : res.receive parse memory part = some received) :
    (received.code = StatusCode.fail ↔ res.Rejects parse memory part) ∧
      received.stored = true ∧
      received.resource.toResourceInfo =
        if res.completed then res.toResourceInfo
        else { res.toResourceInfo with
          completed := received.resource.completed
          parts := res.parts ++ [part] } := by
  simp only [receive] at h
  cases hcompleted : res.completed with
  | true =>
      simp only [hcompleted, if_true, Option.pure_def, Option.some.injEq] at h
      subst h
      exact ⟨by simp [StatusCode.fail, StatusCode.success, Rejects, hcompleted], rfl, rfl⟩
  | false =>
      simp only [hcompleted, Bool.false_eq_true, if_false] at h
      cases hhas : res.hasContentLength with
      | true =>
          simp only [hhas, if_true] at h
          obtain ⟨hcode, hstored, hinfo⟩ := account_spec h
          exact ⟨by simp [hcode, Rejects, hhas], hstored, hinfo⟩
      | false =>
          simp only [hhas, Bool.false_eq_true, if_false, Option.bind_eq_bind,
            Option.bind_eq_some_iff] at h
          obtain ⟨⟨added, full, fullData⟩, hadd, h⟩ := h
          have hrejects : res.Rejects parse memory part ↔
              (added = true → (parse full.data).1 = .error) := by
            simp [Rejects, hcompleted, hhas, refused_iff_of_add hadd]
          rw [hrejects]
          cases added with
          | false =>
              simp only [Bool.false_eq_true, if_false, Option.pure_def, Option.some.injEq] at h
              subst h
              exact ⟨by simp, rfl, rfl⟩
          | true =>
              obtain ⟨hcode, hstored, hinfo⟩ := account_spec h
              exact ⟨by simp [hcode], hstored, hinfo⟩

theorem Rejects.receive (h : res.Rejects parse memory part) :
    ∃ received, res.receive parse memory part = some received := by
  obtain ⟨hcompleted, hhas, hrefused⟩ := h
  obtain ⟨added, full, fullData, hadd⟩ := hrefused.add
  have herr := (refused_iff_of_add hadd).mp hrefused
  simp only [WorkerResource.receive, hcompleted, hhas, hadd, Bool.false_eq_true, if_false,
    Option.bind_eq_bind, Option.bind_some]
  cases added with
  | false => exact ⟨_, rfl⟩
  | true => exact Option.isSome_iff_exists.mp (account_of_error rfl (herr rfl))

end WorkerResource

namespace HttpProxy.ResourceInfo

variable {resource : ResourceInfo} {received : Received ResourceInfo}

/-- When `readServerResponse` rejects a part. The full data are not looked at any more as soon as
the length is known. -/
def Rejects (parse : ResponseParser) (memory : ℕ → Bool) (resource : ResourceInfo)
    (part : Part) : Prop :=
  if resource.contentLength = 0 then Refused parse memory part resource.fullData
  else resource.contentLength < resource.currentLength + part.data.length ∧
    (parse part.data).1 = .error

theorem afterParse_spec {out : ParseResult × Response}
    (h : resource.afterParse full out = some received) :
    (received.code = StatusCode.fail ↔ out.1 = .error) ∧
      (received.code = StatusCode.fail → received.stored = true) ∧
      received.resource.parts = resource.parts := by
  obtain ⟨result, response⟩ := out
  cases result with
  | error =>
      simp only [afterParse, Option.pure_def, Option.some.injEq] at h
      subst h
      exact ⟨by simp, fun _ => rfl, rfl⟩
  | incompleted =>
      simp only [afterParse, Option.bind_eq_bind, Option.bind_eq_some_iff, Option.pure_def,
        Option.some.injEq] at h
      obtain ⟨_, -, -, -, rfl⟩ := h
      exact ⟨by simp [StatusCode.fail, StatusCode.success], fun _ => rfl, rfl⟩
  | completed =>
      simp only [afterParse, Option.bind_eq_bind, Option.bind_eq_some_iff, Option.pure_def,
        Option.some.injEq] at h
      obtain ⟨-, -, rfl⟩ := h
      exact ⟨by simp [StatusCode.fail, StatusCode.success],
        by simp [StatusCode.fail, StatusCode.success], rfl⟩

theorem afterParse_of_error {out : ParseResult × Response} (herr : out.1 = .error) :
    (resource.afterParse full out).isSome = true := by
  obtain ⟨result, response⟩ := out
  cases herr
  rfl

theorem account_spec (h : resource.account parse full part = some received) :
    (received.code = StatusCode.fail ↔
        (resource.contentLength = 0 ∨
          resource.contentLength < resource.currentLength + part.data.length) ∧
        (parse full.data).1 = .error) ∧
      (received.code = StatusCode.fail → received.stored = true) ∧
      received.resource.parts = resource.parts := by
  simp only [account] at h
  split at h
  · next hlt =>
      simp only [Option.pure_def, Option.some.injEq] at h
      subst h
      refine ⟨?_, fun _ => rfl, rfl⟩
      simp only [StatusCode.success, StatusCode.fail]
      omega
  · next hge =>
      split at h
      · next heq =>
          simp only [Option.pure_def, Option.some.injEq] at h
          subst h
          simp only [Bool.and_eq_true, beq_iff_eq, decide_eq_true_eq] at heq
          refine ⟨?_, fun _ => rfl, rfl⟩
          simp only [StatusCode.success, StatusCode.fail]
          omega
      · next hne =>
          obtain ⟨hcode, hstored, hparts⟩ := afterParse_spec h
          refine ⟨?_, hstored, hparts⟩
          simp only [Bool.and_eq_true, beq_iff_eq, decide_eq_true_eq] at hne
          have hover : resource.contentLength = 0 ∨
              resource.contentLength < resource.currentLength + part.data.length := by
            omega
          simp [hcode, hover]

/-- A response that is none is found out before anything can go wrong. -/
theorem account_of_error (herr : (parse full.data).1 = .error) :
    (resource.account parse full part).isSome = true := by
  simp only [account]
  split
  · rfl
  · split
    · rfl
    · exact afterParse_of_error herr

theorem receive_spec (h : resource.receive parse memory part = some received) :
    (received.code = StatusCode.fail ↔ resource.Rejects parse memory part) ∧
      (received.code = StatusCode.fail → received.stored = true) ∧
      received.resource.parts = resource.parts ++ [part] := by
  simp only [receive] at h
  by_cases hzero : resource.contentLength = 0
  · simp only [hzero, beq_self_eq_true, if_true, Option.bind_eq_bind,
      Option.bind_eq_some_iff] at h
    obtain ⟨⟨added, full, fullData⟩, hadd, h⟩ := h
    simp only [Rejects, hzero, if_true, refused_iff_of_add hadd]
    cases added with
    | false =>
        simp only [Bool.false_eq_true, if_false, Option.pure_def, Option.some.injEq] at h
        subst h
        exact ⟨by simp, fun _ => rfl, rfl⟩
    | true =>
        simp only [if_true] at h
        obtain ⟨hcode, hstored, hparts⟩ := account_spec h
        exact ⟨by simp [hcode], hstored, hparts⟩
  · simp only [beq_iff_eq, hzero, if_false] at h
    obtain ⟨hcode, hstored, hparts⟩ := account_spec h
    exact ⟨by simp [hcode, hzero, Rejects], hstored, hparts⟩

/-- A part that is rejected is rejected by a return code. -/
theorem Rejects.receive (h : resource.Rejects parse memory part) :
    ∃ received, resource.receive parse memory part = some received := by
  by_cases hzero : resource.contentLength = 0
  · simp only [Rejects, hzero, if_true] at h
    obtain ⟨added, full, fullData, hadd⟩ := h.add
    have herr := (refused_iff_of_add hadd).mp h
    simp only [ResourceInfo.receive, hzero, hadd, beq_self_eq_true, if_true,
      Option.bind_eq_bind, Option.bind_some]
    cases added with
    | false => exact ⟨_, rfl⟩
    | true =>
        simp only [if_true]
        exact Option.isSome_iff_exists.mp (account_of_error (herr rfl))
  · simp only [Rejects, hzero, if_false] at h
    simp only [ResourceInfo.receive, beq_iff_eq, hzero, if_false]
    exact Option.isSome_iff_exists.mp (account_of_error h.2)

end HttpProxy.ResourceInfo

/-- A part is put into the resource before it is rejected and is deleted afterwards, so the only
parts that leave no trace are those which are not rejected. -/
theorem noTrace_iff {R : Type} {trace : R → Trace} {receive : R → Part → Option (Received R)}
    {new : R} {rejects : R → Part → Prop} (cache : String → Option R) (name : String)
    (hspec : ∀ res part received, receive res part = some received →
      (received.code = StatusCode.fail ↔ rejects res part) ∧
        (received.code = StatusCode.fail → received.stored = true ∧
          (trace received.resource).parts = (trace res).parts ++ [part]))
    (hreturns : ∀ res part, rejects res part → ∃ received, receive res part = some received) :
    NoTrace trace receive new cache name part ↔ ¬rejects ((cache name).getD new) part := by
  constructor
  · intro hno hrejects
    obtain ⟨received, hreceive⟩ := hreturns _ _ hrejects
    obtain ⟨hcode, hkept⟩ := hspec _ _ _ hreceive
    have hfail := hcode.mpr hrejects
    obtain ⟨hstored, hparts⟩ := hkept hfail
    have hread : readMessageFrom receive new cache name part =
        some ({ received with deleted := true },
          Function.update cache name (some received.resource)) := by
      simp [readMessageFrom, readServerResponse, hreceive, hfail, hstored]
    have hsame := (hno _ _ hread hfail).1
    simp only [Function.update_self, Option.getD_some] at hsame
    rw [hsame] at hparts
    simp at hparts
  · intro hnot received cache' hread hfail
    simp only [readMessageFrom, readServerResponse, Option.bind_eq_bind, Option.pure_def,
      Option.bind_eq_some_iff, Option.some.injEq] at hread
    obtain ⟨_, ⟨received₁, hreceive, rfl⟩, hread⟩ := hread
    have hcode : received₁.code ≠ StatusCode.fail := fun hcode =>
      hnot ((hspec _ _ _ hreceive).1.mp hcode)
    simp only [hcode, if_false, Prod.mk.injEq] at hread
    exact absurd (hread.1 ▸ hfail) hcode

end Rejected

/-- In both proxies a rejected part leaves no trace only where no part is rejected: where the
response is complete or its length is known, or else there is room for the part and the data make
the beginning of a response with it. The single-threaded proxy parses what goes beyond the length
that is known, too. -/
theorem rejectedPart_untraced_iff (parse : ResponseParser) (memory : ℕ → Bool) (name : String)
    (part : Part) :
    (∀ cache : String → Option WorkerResource,
      NoTrace WorkerResource.trace (WorkerResource.receive parse memory) .new cache name part ↔
        ¬((cache name).getD .new).Rejects parse memory part) ∧
    ∀ cache : String → Option HttpProxy.ResourceInfo,
      NoTrace HttpProxy.ResourceInfo.trace (HttpProxy.ResourceInfo.receive parse memory) .new
        cache name part ↔ ¬((cache name).getD .new).Rejects parse memory part := by
  constructor
  · intro cache
    refine noTrace_iff cache name (fun res part received hreceive => ?_) fun res part hrejects =>
      hrejects.receive
    obtain ⟨hcode, hstored, hinfo⟩ := WorkerResource.receive_spec hreceive
    refine ⟨hcode, fun hfail => ⟨hstored, ?_⟩⟩
    have hcompleted := (hcode.mp hfail).1
    simp only [hcompleted, Bool.false_eq_true, if_false] at hinfo
    exact congrArg ResourceInfo.parts hinfo
  · intro cache
    refine noTrace_iff cache name (fun res part received hreceive => ?_) fun res part hrejects =>
      hrejects.receive
    obtain ⟨hcode, hstored, hparts⟩ := HttpProxy.ResourceInfo.receive_spec hreceive
    exact ⟨hcode, fun hfail => ⟨hstored hfail, hparts⟩⟩

def rejectAll : ResponseParser := fun _ => (.error, ⟨[], 0, 0⟩)

/-- The first part of a response is not one. -/
theorem not_rejectedPart_untraced_first :
    ¬NoTrace WorkerResource.trace (WorkerResource.receive rejectAll fun _ => true) .new
        (fun _ => none) "http://a/" ⟨⟨[0x3c], 128, by decide⟩, 1⟩ ∧
      ¬NoTrace HttpProxy.ResourceInfo.trace
        (HttpProxy.ResourceInfo.receive rejectAll fun _ => true) .new
        (fun _ => none) "http://a/" ⟨⟨[0x3c], 128, by decide⟩, 1⟩ := by
  constructor
  · intro h
    have := (h _ _ rfl rfl).1
    revert this
    decide +kernel
  · intro h
    have := (h _ _ rfl rfl).1
    revert this
    decide +kernel

end PosixThreads
