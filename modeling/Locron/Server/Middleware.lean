import Mathlib.Data.List.DropRight
import Locron.Lib.Text

set_option autoImplicit false

/-! # The security middleware of the dashboard

Host allowlist, Origin check, token authentication and CSRF double-submit, as layers around the rest
of the server. A layer answers a request itself or hands it on. Texts are byte strings: the text of
a header field is its bytes, provided all of them are readable.
-/

namespace Locron.Server

open Text (utf8)

/-! ## Requests -/

inductive Method where
  | get
  | head
  | post
  | put
  | patch
  | delete
  /-- every other method, by its name -/
  | other (name : String)
deriving DecidableEq, Repr

/-- The names of the header fields that are looked at, in the lower case of the header map. -/
inductive HeaderName where
  | host
  | origin
  | authorization
  | cookie
  | contentType
  | csrf
  | other (name : String)
deriving DecidableEq, Repr

/-- How a request authenticated. -/
inductive AuthKind where
  | unauthenticated
  | bearer
  | session
deriving DecidableEq, Repr

/-- The stream of body bytes, which may fail. -/
inductive Body where
  | bytes (content : List UInt8)
  | failing
deriving DecidableEq, Repr

structure Request where
  method : Method
  /-- the raw path, percent escapes not decoded -/
  path : List UInt8
  headers : List (HeaderName × List UInt8)
  body : Body
  /-- the extension that the authentication leaves for the layers below it -/
  auth : Option AuthKind := none
deriving DecidableEq

/-- All values of a field, in order. -/
def Request.getAll (request : Request) (name : HeaderName) : List (List UInt8) :=
  (request.headers.filter (·.1 = name)).map Prod.snd

structure AppState where
  token : List UInt8
  boundPort : Nat

/-- An answer of a layer, with the fields it sets. -/
structure Answer where
  status : Nat
  code : String
  message : String
deriving DecidableEq, Repr

/-! ## Header fields -/

def isVisibleAscii (byte : UInt8) : Bool := (32 ≤ byte && byte < 127) || byte == 9

/-- `HeaderValue::to_str` -/
def toStr (value : List UInt8) : Option (List UInt8) :=
  if value.all isVisibleAscii then some value else none

/-- No value, or one that is readable. -/
def singleHeader (request : Request) (name : HeaderName) : Except Unit (Option (List UInt8)) :=
  match request.getAll name with
  | [] => .ok none
  | [value] =>
    match toStr value with
    | some text => .ok (some text)
    | none => .error ()
  | _ :: _ :: _ => .error ()

def isDigit (byte : UInt8) : Bool := 48 ≤ byte && byte ≤ 57

def isHexDigit (byte : UInt8) : Bool :=
  isDigit byte || (97 ≤ byte && byte ≤ 102) || (65 ≤ byte && byte ≤ 70)

def toLower (byte : UInt8) : UInt8 := if 65 ≤ byte && byte ≤ 90 then byte + 32 else byte

def eqIgnoreAsciiCase : List UInt8 → List UInt8 → Bool := Text.eqIgnoreCase toLower

def decimal : List UInt8 → Nat := Text.decimal UInt8.toNat

def colon : UInt8 := 58

def loopbackPort (authority : List UInt8) : Option Nat :=
  match (utf8 "[::1]").isPrefixOf? authority with
  | some suffix => port suffix
  | none =>
    let hostname := authority.takeWhile (· != colon)
    if ¬ eqIgnoreAsciiCase hostname (utf8 "localhost") ∧ hostname ≠ utf8 "127.0.0.1" then none
    else port (authority.dropWhile (· != colon))
where
  port : List UInt8 → Option Nat
    | [] => some 80
    | c :: digits =>
      if c ≠ colon then none
      else if digits = [] ∨ ¬ digits.all isDigit then none
      else if decimal digits < 2 ^ 16 then some (decimal digits)
      else none

def validTokenValue (value : List UInt8) : Bool := value.length == 64 && value.all isHexDigit

/-! ## Cookies -/

inductive CookieState where
  | missing
  | uniqueValidHex (value : List UInt8)
  | uniqueReadableMalformed
  | duplicateOrUnreadable
deriving DecidableEq, Repr

/-- `str::trim` on a readable text. -/
def trim (text : List UInt8) : List UInt8 :=
  (text.dropWhile fun byte => byte == 32 || byte == 9).rdropWhile
    fun byte => byte == 32 || byte == 9

def equals : UInt8 := 61

def suppliedBy (name pair : List UInt8) : Option CookieState :=
  match Text.splitOnce equals pair with
  | some (key, value) =>
    if trim key = name then
      some (if key = name ∧ validTokenValue value then .uniqueValidHex value
        else .uniqueReadableMalformed)
    else none
  | none => if pair = name then some .uniqueReadableMalformed else none

def CookieState.next : CookieState → CookieState → CookieState
  | .missing, supplied => supplied
  | _, _ => .duplicateOrUnreadable

def scanPairs (name : List UInt8) (found : CookieState) (cookies : List UInt8) : CookieState :=
  (cookies.splitOn 59).foldl (fun found pair =>
    match suppliedBy name (trim pair) with
    | some supplied => found.next supplied
    | none => found) found

def scanCookies (name : List UInt8) :
    CookieState × Bool → List (List UInt8) → CookieState × Bool
  | scanned, [] => scanned
  | (found, unreadable), field :: fields =>
    match toStr field with
    | none => scanCookies name (found, true) fields
    | some cookies => scanCookies name (scanPairs name found cookies, unreadable) fields

def cookieValue (request : Request) (name : List UInt8) : CookieState :=
  let (found, unreadable) := scanCookies name (.missing, false) (request.getAll .cookie)
  if unreadable then .duplicateOrUnreadable else found

def constantTimeEq (left right : List UInt8) : Bool :=
  if left.length ≠ right.length then false
  else (left.zip right).foldl (fun diff (a, b) => diff ||| (a ^^^ b)) 0 == 0

/-! ## Layers -/

def sessionCookie : List UInt8 := utf8 "locron_session"

def csrfCookie : List UInt8 := utf8 "csrf_token"

def csrfFormLimit : Nat := 1048576

def Method.isUnsafe : Method → Bool
  | .post | .put | .patch | .delete => true
  | .get | .head | .other _ => false

def sessionPath : List UInt8 := utf8 "/api/v1/session"

/-- Either an answer, or the request for the layer below. -/
abbrev Layer := AppState → Request → Except Answer Request

def unauthorized : Answer :=
  ⟨401, "unauthenticated", "a valid access token or session cookie is required"⟩

def refused (message : String) : Answer := ⟨403, "refused", message⟩

def host : Layer := fun _ request =>
  match singleHeader request .host with
  | .ok (some value) =>
    if (loopbackPort value).isSome then .ok request
    else .error (refused "request requires one valid loopback Host header")
  | .ok none | .error () => .error (refused "request requires one valid loopback Host header")

def originMatches (state : AppState) (origin : List UInt8) : Bool :=
  match (utf8 "http://").isPrefixOf? origin with
  | none => false
  | some authority =>
    match loopbackPort authority with
    | none => false
    | some port => port == state.boundPort

def origin : Layer := fun state request =>
  if request.method.isUnsafe then
    match singleHeader request .origin with
    | .ok none => .ok request
    | .ok (some value) =>
      if originMatches state value then .ok request
      else .error (refused "Origin must be one valid origin of this loopback server")
    | .error () => .error (refused "Origin must be one valid origin of this loopback server")
  else .ok request

def Request.isEntry (request : Request) : Bool :=
  request.method == .get && !(utf8 "/api/").isPrefixOf request.path

/-- The one-time token paste. -/
def Request.isPaste (request : Request) : Bool :=
  request.method == .post && request.path == sessionPath

/-- The token of an `Authorization` field. -/
def bearerToken (bearer : List UInt8) : Option (List UInt8) :=
  ((utf8 "token ").isPrefixOf? bearer).or ((utf8 "Token ").isPrefixOf? bearer)

/-- How the request authenticates, if it is not turned away at once. -/
def authKind (state : AppState) (request : Request) : Except Answer AuthKind :=
  match singleHeader request .authorization with
  | .ok (some bearer) =>
    match bearerToken bearer with
    | some token => if constantTimeEq token state.token then .ok .bearer else .error unauthorized
    | none => .error unauthorized
  | .ok none =>
    match cookieValue request sessionCookie with
    | .uniqueValidHex cookie =>
      if constantTimeEq cookie state.token then .ok .session else .ok .unauthenticated
    | .missing => .ok .unauthenticated
    | .uniqueReadableMalformed | .duplicateOrUnreadable =>
      if request.isEntry then .ok .unauthenticated else .error unauthorized
  | .error () => .error unauthorized

def authenticate : Layer := fun state request =>
  match authKind state request with
  | .error answer => .error answer
  | .ok auth =>
    if auth = .unauthenticated ∧ ¬ request.isEntry ∧ ¬ request.isPaste then .error unauthorized
    else .ok { request with auth := some auth }

/-- The one field of the form, and an early end at a second or malformed one. -/
def csrfFormLoop : Option (List UInt8) → List (List UInt8) → Option (List UInt8)
  | found, [] => found
  | found, pair :: pairs =>
    match Text.splitOnce equals pair with
    | none => if pair = csrfCookie then none else csrfFormLoop found pairs
    | some (key, value) =>
      if key = csrfCookie then
        if found.isSome ∨ ¬ validTokenValue value then none else csrfFormLoop (some value) pairs
      else csrfFormLoop found pairs

def csrfFormValue (body : List UInt8) : Option (List UInt8) := csrfFormLoop none (body.splitOn 38)

def mediaType (contentType : List UInt8) : List UInt8 := trim (Text.before 59 contentType)

/-- `body::to_bytes` -/
def Body.toBytes (limit : Nat) : Body → Option (List UInt8)
  | .bytes content => if content.length ≤ limit then some content else none
  | .failing => none

/-- The value of the form field; the body is put back if it was read. -/
def csrfFromFormField (request : Request) : Option (List UInt8) × Request :=
  match singleHeader request .contentType with
  | .ok (some contentType) =>
    if ¬ eqIgnoreAsciiCase (mediaType contentType) (utf8 "application/x-www-form-urlencoded") then
      (none, request)
    else
      match request.body.toBytes csrfFormLimit with
      | none => (none, { request with body := .bytes [] })
      | some content =>
        (if ByteArray.validateUTF8 ⟨content.toArray⟩ then csrfFormValue content else none,
          { request with body := .bytes content })
  | .ok none | .error () => (none, request)

/-- The echoed value of a mutation with the given CSRF cookie must be that of the cookie. -/
def checkEcho (cookie : List UInt8) (request : Request) : Except Answer Request :=
  let (echoed, request) :=
    match singleHeader request .csrf with
    | .ok (some value) => (if validTokenValue value then some value else none, request)
    | .ok none => csrfFromFormField request
    | .error () => (none, request)
  match echoed with
  | some value =>
    if constantTimeEq value cookie then .ok request
    else .error (refused "X-CSRF-Token does not match the csrf_token cookie")
  | none => .error (refused "X-CSRF-Token does not match the csrf_token cookie")

def csrf : Layer := fun _ request =>
  let auth := request.auth.getD .unauthenticated
  let cookie := cookieValue request csrfCookie
  if auth = .session ∧ request.method = .get ∧ request.path = sessionPath ∧
      (cookie = .uniqueReadableMalformed ∨ cookie = .duplicateOrUnreadable) then
    .error unauthorized
  else if request.method.isUnsafe ∧ auth = .session then
    match cookie with
    | .uniqueValidHex cookie => checkEcho cookie request
    | .uniqueReadableMalformed =>
      if request.isPaste ∧ singleHeader request .csrf = .ok none then .ok request
      else .error (refused "cookie-authenticated mutations require a CSRF token")
    | .missing | .duplicateOrUnreadable =>
      .error (refused "cookie-authenticated mutations require a CSRF token")
  else .ok request

/-! ## What the checks establish -/

variable {request : Request} {name : HeaderName} {text : List UInt8}

/-- There is exactly one field of this name, and it has this readable text. -/
def Request.HasOne (request : Request) (name : HeaderName) (text : List UInt8) : Prop :=
  request.getAll name = [text] ∧ ∀ byte ∈ text, isVisibleAscii byte = true

def Request.HasNone (request : Request) (name : HeaderName) : Prop := request.getAll name = []

theorem toStr_eq_some {value : List UInt8} :
    toStr value = some text ↔ value = text ∧ ∀ byte ∈ text, isVisibleAscii byte = true := by
  unfold toStr
  rw [Option.ite_none_right_eq_some, List.all_eq_true, Option.some.injEq]
  constructor
  · rintro ⟨hall, rfl⟩
    exact ⟨rfl, hall⟩
  · rintro ⟨rfl, hall⟩
    exact ⟨hall, rfl⟩

theorem singleHeader_eq_none : singleHeader request name = .ok none ↔ request.HasNone name := by
  unfold singleHeader Request.HasNone
  split
  · next h => simp [h]
  · next value h =>
    rw [h]
    cases toStr value <;> simp
  · next h => simp [h]

theorem singleHeader_eq_some :
    singleHeader request name = .ok (some text) ↔ request.HasOne name text := by
  unfold singleHeader Request.HasOne
  split
  · next h => simp [h]
  · next value h =>
    rw [h, List.cons.injEq, and_iff_left rfl, ← toStr_eq_some]
    cases toStr value <;> simp
  · next h => simp [h]

/-- A loopback host: the IPv6 address, the IPv4 address, or the name. -/
def LoopbackHost (host : List UInt8) : Prop :=
  host = utf8 "[::1]" ∨ host = utf8 "127.0.0.1" ∨ eqIgnoreAsciiCase host (utf8 "localhost") = true

/-- Nothing, which stands for port 80, or a colon and the digits of a port. -/
def PortSuffix (suffix : List UInt8) (port : Nat) : Prop :=
  suffix = [] ∧ port = 80 ∨
    ∃ digits, suffix = colon :: digits ∧ digits ≠ [] ∧ (∀ d ∈ digits, isDigit d = true) ∧
      decimal digits = port ∧ port < 2 ^ 16

def LoopbackAuthority (authority : List UInt8) (port : Nat) : Prop :=
  ∃ host suffix, authority = host ++ suffix ∧ LoopbackHost host ∧ PortSuffix suffix port

theorem portSuffix_of_port {suffix : List UInt8} {port : Nat}
    (h : loopbackPort.port suffix = some port) : PortSuffix suffix port := by
  cases suffix with
  | nil =>
    cases h
    exact Or.inl ⟨rfl, rfl⟩
  | cons c digits =>
    unfold loopbackPort.port at h
    obtain ⟨hcolon, h⟩ := Option.ite_none_left_eq_some.mp h
    obtain ⟨hdigits, h⟩ := Option.ite_none_left_eq_some.mp h
    obtain ⟨hbound, h⟩ := Option.ite_none_right_eq_some.mp h
    cases h
    obtain ⟨hne, hall⟩ := not_or.mp hdigits
    refine Or.inr ⟨digits, by rw [not_not.mp hcolon], hne, ?_, rfl, hbound⟩
    exact List.all_eq_true.mp (not_not.mp hall)

theorem loopbackAuthority_of_loopbackPort {authority : List UInt8} {port : Nat}
    (h : loopbackPort authority = some port) : LoopbackAuthority authority port := by
  unfold loopbackPort at h
  split at h
  · next suffix hbracket =>
    rw [List.isPrefixOf?_eq_some_iff_append_eq] at hbracket
    exact ⟨utf8 "[::1]", suffix, hbracket.symm, Or.inl rfl, portSuffix_of_port h⟩
  obtain ⟨hhost, h⟩ := Option.ite_none_left_eq_some.mp h
  refine ⟨_, _, (List.takeWhile_append_dropWhile ..).symm, ?_, portSuffix_of_port h⟩
  rcases not_and_or.mp hhost with hname | haddress
  · exact Or.inr (Or.inr (not_not.mp hname))
  · exact Or.inr (Or.inl (not_not.mp haddress))

theorem constantTimeEq_eq_true {left right : List UInt8} :
    constantTimeEq left right = true ↔ left = right := by
  have hfold : ∀ (left right : List UInt8) (diff : UInt8), left.length = right.length →
      ((left.zip right).foldl (fun diff (a, b) => diff ||| (a ^^^ b)) diff = 0
        ↔ diff = 0 ∧ left = right) := by
    intro left
    induction left with
    | nil =>
      intro right diff hlength
      have hnil := List.length_eq_zero_iff.mp hlength.symm
      simp [hnil]
    | cons a left ih =>
      intro right diff hlength
      cases right with
      | nil => simp at hlength
      | cons b right =>
        rw [List.zip_cons_cons, List.foldl_cons, ih right _ (by simpa using hlength),
          UInt8.or_eq_zero_iff, UInt8.xor_eq_zero_iff, List.cons.injEq, and_assoc]
  unfold constantTimeEq
  by_cases hlength : left.length = right.length
  · rw [if_neg (not_not.mpr hlength), beq_iff_eq, hfold left right 0 hlength, and_iff_right rfl]
  rw [if_pos hlength]
  constructor
  · intro h
    cases h
  · rintro rfl
    exact absurd rfl hlength

/-! ## Exactly one cookie -/

def cookieKey (pair : List UInt8) : List UInt8 :=
  match Text.splitOnce equals pair with
  | some (key, _) => trim key
  | none => pair

def cookiePairs (fields : List (List UInt8)) : List (List UInt8) :=
  fields.flatMap fun field => (field.splitOn 59).map trim

/-- All cookie fields are readable, and of all their pairs exactly one has this name, with this
value. -/
def Request.HasCookie (request : Request) (name value : List UInt8) : Prop :=
  (∀ field ∈ request.getAll .cookie, (toStr field).isSome = true) ∧
    ((cookiePairs (request.getAll .cookie)).filter fun pair => cookieKey pair = name)
      = [name ++ equals :: value]

variable {key pair value : List UInt8} {found : CookieState}

theorem isSome_suppliedBy (key pair : List UInt8) :
    decide (cookieKey pair = key) = (suppliedBy key pair).isSome := by
  unfold suppliedBy cookieKey
  cases Text.splitOnce equals pair with
  | none => by_cases h : pair = key <;> simp [h]
  | some parts => by_cases h : trim parts.1 = key <;> simp [h]

theorem suppliedBy_ne_missing : suppliedBy key pair ≠ some .missing := by
  unfold suppliedBy
  cases Text.splitOnce equals pair with
  | none => by_cases h : pair = key <;> simp [h]
  | some parts =>
    dsimp only
    split
    · split <;> simp
    · simp

theorem suppliedBy_eq_valid (h : suppliedBy key pair = some (.uniqueValidHex value)) :
    pair = key ++ equals :: value ∧ validTokenValue value = true := by
  unfold suppliedBy at h
  split at h
  · next k v hsplit =>
    obtain ⟨-, h⟩ := Option.ite_none_right_eq_some.mp h
    split at h
    · next hvalid =>
      cases h
      obtain ⟨rfl, hvalid⟩ := hvalid
      exact ⟨(Text.splitOnce_eq_some.mp hsplit).1, hvalid⟩
    · cases h
  · obtain ⟨-, h⟩ := Option.ite_none_right_eq_some.mp h
    cases h

theorem foldl_next {supplied : List CookieState} (h : found ≠ .missing) :
    supplied.foldl CookieState.next found
      = if supplied = [] then found else .duplicateOrUnreadable := by
  induction supplied generalizing found with
  | nil => rfl
  | cons s supplied ih =>
    have hnext : found.next s = .duplicateOrUnreadable := by
      cases found with
      | missing => exact absurd rfl h
      | _ => rfl
    rw [List.foldl_cons, hnext, ih (by decide), ite_self, if_neg (List.cons_ne_nil _ _)]

theorem foldl_next_eq_valid {supplied : List CookieState} (hne : ∀ s ∈ supplied, s ≠ .missing)
    (h : supplied.foldl CookieState.next .missing = .uniqueValidHex value) :
    supplied = [.uniqueValidHex value] := by
  cases supplied with
  | nil => cases h
  | cons s supplied =>
    rw [List.foldl_cons] at h
    change supplied.foldl CookieState.next s = _ at h
    rw [foldl_next (hne s (List.mem_cons_self ..))] at h
    split at h
    · next hnil => rw [hnil, h]
    · cases h

theorem scanPairs_eq (key : List UInt8) (found : CookieState) (cookies : List UInt8) :
    scanPairs key found cookies
      = (((cookies.splitOn 59).map trim).filterMap (suppliedBy key)).foldl
        CookieState.next found := by
  unfold scanPairs
  rw [List.foldl_filterMap, List.foldl_map]
  congr 1
  funext found pair
  cases suppliedBy key (trim pair) <;> rfl

theorem scanCookies_eq {fields : List (List UInt8)} {unreadable : Bool}
    (h : (scanCookies key (found, unreadable) fields).2 = false) :
    unreadable = false ∧ (∀ field ∈ fields, (toStr field).isSome = true) ∧
      (scanCookies key (found, unreadable) fields).1
        = ((cookiePairs fields).filterMap (suppliedBy key)).foldl CookieState.next found := by
  induction fields generalizing found unreadable with
  | nil => exact ⟨h, fun _ hmem => absurd hmem List.not_mem_nil, rfl⟩
  | cons field fields ih =>
    unfold scanCookies at h ⊢
    cases htext : toStr field with
    | none =>
      rw [htext] at h
      cases (ih h).1
    | some cookies =>
      rw [htext] at h
      obtain ⟨hreadable, hall, hscan⟩ := ih h
      obtain ⟨rfl, -⟩ := toStr_eq_some.mp htext
      refine ⟨hreadable, ?_, ?_⟩
      · intro other hother
        rcases List.mem_cons.mp hother with rfl | hother
        · rw [htext]
          rfl
        · exact hall other hother
      · dsimp only
        rw [hscan, scanPairs_eq, ← List.foldl_append, ← List.filterMap_append]
        rfl

/-- **A cookie is taken only if it is the only one of its name.** -/
theorem hasCookie_of_cookieValue (h : cookieValue request key = .uniqueValidHex value) :
    request.HasCookie key value ∧ validTokenValue value = true := by
  unfold cookieValue at h
  dsimp only at h
  split at h
  · cases h
  next hreadable =>
  obtain ⟨-, hall, hscan⟩ := scanCookies_eq (Bool.eq_false_of_not_eq_true hreadable)
  rw [hscan] at h
  have hone : (cookiePairs (request.getAll .cookie)).filterMap (suppliedBy key)
      = [.uniqueValidHex value] := by
    refine foldl_next_eq_valid ?_ h
    rintro s hs rfl
    obtain ⟨pair, -, hpair⟩ := List.mem_filterMap.mp hs
    exact suppliedBy_ne_missing hpair
  obtain ⟨pair, hfilter, hsupplied⟩ :=
    Text.filter_of_filterMap_eq_singleton (isSome_suppliedBy key) hone
  obtain ⟨rfl, hvalid⟩ := suppliedBy_eq_valid hsupplied
  exact ⟨⟨hall, hfilter⟩, hvalid⟩

/-! ## Exactly one form field -/

/-- The body is a form with exactly one field of the CSRF name, which has this value. -/
def Request.HasFormValue (request : Request) (value : List UInt8) : Prop :=
  ∃ contentType content, request.HasOne .contentType contentType ∧
    eqIgnoreAsciiCase (mediaType contentType) (utf8 "application/x-www-form-urlencoded") = true ∧
    request.body = .bytes content ∧ content.length ≤ csrfFormLimit ∧
    ((content.splitOn 38).filter fun pair => Text.before equals pair = csrfCookie)
      = [csrfCookie ++ equals :: value]

theorem csrfFormLoop_eq_some {found : Option (List UInt8)} {pairs : List (List UInt8)}
    (h : csrfFormLoop found pairs = some value) :
    (found = some value ∧ pairs.filter (fun pair => Text.before equals pair = csrfCookie) = []) ∨
      (found = none ∧ pairs.filter (fun pair => Text.before equals pair = csrfCookie)
        = [csrfCookie ++ equals :: value]) := by
  induction pairs generalizing found with
  | nil => exact Or.inl ⟨h, rfl⟩
  | cons pair pairs ih =>
    unfold csrfFormLoop at h
    split at h
    · next hsplit =>
      obtain ⟨hother, h⟩ := Option.ite_none_left_eq_some.mp h
      rw [List.filter_cons_of_neg (by simpa [Text.before_of_none hsplit] using hother)]
      exact ih h
    · next k v hsplit =>
      have hbefore := Text.before_of_splitOnce hsplit
      split at h
      · next hkey =>
        obtain ⟨hfresh, h⟩ := Option.ite_none_left_eq_some.mp h
        obtain ⟨hnone, -⟩ := not_or.mp hfresh
        rw [Option.not_isSome_iff_eq_none] at hnone
        rw [List.filter_cons_of_pos (by simp [hbefore, hkey])]
        rcases ih h with ⟨heq, hrest⟩ | ⟨heq, -⟩
        · cases heq
          obtain ⟨rfl, -⟩ := Text.splitOnce_eq_some.mp hsplit
          exact Or.inr ⟨hnone, by rw [hrest, hkey]⟩
        · cases heq
      · next hkey =>
        rw [List.filter_cons_of_neg (by simpa [hbefore] using hkey)]
        exact ih h

theorem csrfFromFormField_eq_some {request' : Request}
    (h : csrfFromFormField request = (some value, request')) :
    request.HasFormValue value ∧ request' = request := by
  unfold csrfFromFormField at h
  split at h
  · next contentType hsingle =>
    split at h
    · cases h
    next hmedia =>
    split at h
    · cases h
    next content hcontent =>
    obtain ⟨hvalue, rfl⟩ := Prod.mk.injEq .. ▸ h
    obtain ⟨-, hvalue⟩ := Option.ite_none_right_eq_some.mp hvalue
    cases hbody : request.body with
    | failing =>
      rw [hbody] at hcontent
      cases hcontent
    | bytes sent =>
      rw [hbody] at hcontent
      obtain ⟨hlimit, hsent⟩ := Option.ite_none_right_eq_some.mp hcontent
      cases hsent
      rcases csrfFormLoop_eq_some hvalue with ⟨hnone, -⟩ | ⟨-, hone⟩
      · cases hnone
      refine ⟨⟨contentType, content, singleHeader_eq_some.mp hsingle, not_not.mp hmedia,
        hbody, hlimit, hone⟩, ?_⟩
      rw [← hbody]
  · cases h
  · cases h

/-! ## What each layer lets through -/

variable {state : AppState} {request' : Request}

/-- There is one Host field, with a loopback authority. -/
def Request.FromLoopback (request : Request) : Prop :=
  ∃ authority port, request.HasOne .host authority ∧ LoopbackAuthority authority port

/-- The Origin is absent, or one origin of this server. -/
def Request.SameOrigin (state : AppState) (request : Request) : Prop :=
  request.HasNone .origin ∨
    ∃ authority, request.HasOne .origin (utf8 "http://" ++ authority) ∧
      LoopbackAuthority authority state.boundPort

def Request.Bears (state : AppState) (request : Request) : Prop :=
  request.HasOne .authorization (utf8 "token " ++ state.token) ∨
    request.HasOne .authorization (utf8 "Token " ++ state.token)

/-- No Authorization field, and the only session cookie is the token. -/
def Request.HasSession (state : AppState) (request : Request) : Prop :=
  request.HasNone .authorization ∧ request.HasCookie sessionCookie state.token

/-- The only CSRF cookie is well formed, and it is the one echoed header value or, without such a
header, the one form value. -/
def Request.Echoes (request : Request) : Prop :=
  ∃ value, validTokenValue value = true ∧ request.HasCookie csrfCookie value ∧
    (request.HasOne .csrf value ∨ request.HasNone .csrf ∧ request.HasFormValue value)

theorem host_eq_ok (h : host state request = .ok request') :
    request' = request ∧ request.FromLoopback := by
  unfold host at h
  split at h
  · next authority hsingle =>
    split at h
    · next hport =>
      cases h
      obtain ⟨port, hport⟩ := Option.isSome_iff_exists.mp hport
      exact ⟨rfl, authority, port, singleHeader_eq_some.mp hsingle,
        loopbackAuthority_of_loopbackPort hport⟩
    · cases h
  · cases h
  · cases h

theorem originMatches_eq_true {origin : List UInt8} (h : originMatches state origin = true) :
    ∃ authority, origin = utf8 "http://" ++ authority ∧
      LoopbackAuthority authority state.boundPort := by
  unfold originMatches at h
  split at h
  · cases h
  next authority hscheme =>
  rw [List.isPrefixOf?_eq_some_iff_append_eq] at hscheme
  split at h
  · cases h
  next port hport =>
  obtain rfl := beq_iff_eq.mp h
  exact ⟨authority, hscheme.symm, loopbackAuthority_of_loopbackPort hport⟩

theorem origin_eq_ok (h : origin state request = .ok request') :
    request' = request ∧ (request.method.isUnsafe = true → request.SameOrigin state) := by
  unfold origin at h
  split at h
  · split at h
    · next hsingle =>
      cases h
      exact ⟨rfl, fun _ => Or.inl (singleHeader_eq_none.mp hsingle)⟩
    · next value hsingle =>
      split at h
      · next hmatches =>
        cases h
        obtain ⟨authority, rfl, hauthority⟩ := originMatches_eq_true hmatches
        exact ⟨rfl, fun _ => Or.inr ⟨authority, singleHeader_eq_some.mp hsingle, hauthority⟩⟩
      · cases h
    · cases h
  · next hsafe =>
    cases h
    exact ⟨rfl, fun hmutates => absurd hmutates hsafe⟩

theorem bearerToken_eq_some {bearer token : List UInt8} (h : bearerToken bearer = some token) :
    bearer = utf8 "token " ++ token ∨ bearer = utf8 "Token " ++ token := by
  unfold bearerToken at h
  rcases Option.or_eq_some_iff.mp h with h | ⟨-, h⟩
  · exact Or.inl (List.isPrefixOf?_eq_some_iff_append_eq.mp h).symm
  · exact Or.inr (List.isPrefixOf?_eq_some_iff_append_eq.mp h).symm

def AuthKind.RestsOn (state : AppState) (request : Request) : AuthKind → Prop
  | .bearer => request.Bears state
  | .session => request.HasSession state
  | .unauthenticated => True

theorem restsOn_of_authKind {auth : AuthKind} (h : authKind state request = .ok auth) :
    auth.RestsOn state request := by
  unfold authKind at h
  split at h
  · next bearer hsingle =>
    have hone := singleHeader_eq_some.mp hsingle
    split at h
    · next token htoken =>
      split at h
      · next hequal =>
        cases h
        obtain rfl := constantTimeEq_eq_true.mp hequal
        rcases bearerToken_eq_some htoken with rfl | rfl
        · exact Or.inl hone
        · exact Or.inr hone
      · cases h
    · cases h
  · next hsingle =>
    split at h
    · next cookie hcookie =>
      split at h
      · next hequal =>
        cases h
        obtain rfl := constantTimeEq_eq_true.mp hequal
        exact ⟨singleHeader_eq_none.mp hsingle, (hasCookie_of_cookieValue hcookie).1⟩
      · cases h
        trivial
    · cases h
      trivial
    -- a malformed or repeated session cookie only passes for the entry page
    all_goals
      split at h
      · cases h
        trivial
      · cases h
  · cases h

theorem authenticate_eq_ok (h : authenticate state request = .ok request') :
    ∃ auth, request' = { request with auth := some auth } ∧ auth.RestsOn state request ∧
      (auth = .unauthenticated → request.isEntry = true ∨ request.isPaste = true) := by
  unfold authenticate at h
  split at h
  · cases h
  next auth hauth =>
  split at h
  · cases h
  next hadmitted =>
  cases h
  refine ⟨auth, rfl, restsOn_of_authKind hauth, fun hun => ?_⟩
  by_contra hneither
  exact hadmitted ⟨hun, fun hentry => hneither (Or.inl hentry),
    fun hpaste => hneither (Or.inr hpaste)⟩

theorem checkEcho_eq_ok {cookie : List UInt8} (h : checkEcho cookie request = .ok request') :
    request' = request ∧
      (request.HasOne .csrf cookie ∨ request.HasNone .csrf ∧ request.HasFormValue cookie) := by
  unfold checkEcho at h
  split at h
  next echoed after hechoed =>
    split at h
    · next value =>
      split at h
      · next hequal =>
        cases h
        obtain rfl := constantTimeEq_eq_true.mp hequal
        split at hechoed
        · next supplied hsingle =>
          obtain ⟨hvalue, rfl⟩ := Prod.mk.injEq .. ▸ hechoed
          obtain ⟨-, hvalue⟩ := Option.ite_none_right_eq_some.mp hvalue
          cases hvalue
          exact ⟨rfl, Or.inl (singleHeader_eq_some.mp hsingle)⟩
        · next hsingle =>
          obtain ⟨hform, rfl⟩ := csrfFromFormField_eq_some hechoed
          exact ⟨rfl, Or.inr ⟨singleHeader_eq_none.mp hsingle, hform⟩⟩
        · cases hechoed
      · cases h
    · cases h

/-- A mutation with a session echoes its cookie; only the token paste may lack one. -/
theorem csrf_eq_ok (h : csrf state request = .ok request') :
    request' = request ∧ (request.auth = some .session → request.method.isUnsafe = true →
      request.isPaste = true ∨ request.Echoes) := by
  unfold csrf at h
  dsimp only at h
  split at h
  · cases h
  split at h
  · split at h
    · next cookie hcookie =>
      obtain ⟨hone, hvalid⟩ := hasCookie_of_cookieValue hcookie
      obtain ⟨rfl, hechoed⟩ := checkEcho_eq_ok h
      exact ⟨rfl, fun _ _ => Or.inr ⟨cookie, hvalid, hone, hechoed⟩⟩
    · split at h
      · next hpaste =>
        cases h
        exact ⟨rfl, fun _ _ => Or.inl hpaste.1⟩
      · cases h
    · cases h
    · cases h
  · next hexempt =>
    cases h
    refine ⟨rfl, fun hsession hmutates => absurd ⟨hmutates, ?_⟩ hexempt⟩
    rw [hsession]
    rfl

end Locron.Server
