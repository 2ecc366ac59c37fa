import Locron.Lib.Fallible

set_option autoImplicit false

/-! # Following redirects

The runner sends the request of an HTTP target and follows the redirects itself. The chain of
responses is up to the servers, and a chain may leave the first origin and come back to it.
Credentials stay with the requests before the first cross-origin hop. A hop that turns the request
into a GET drops the body and three of the header fields that describe it; the others are sent on
(`confined_iff`).
-/

namespace Locron.Engine

/-! ## Requests -/

inductive Method where
  | get
  | post
  | put
  | patch
  | delete
  | head
deriving DecidableEq, Repr

/-- A URL: what makes up its origin, and the rest. -/
structure Url where
  scheme : String
  host : Option String
  port : Option Nat
  rest : String
deriving DecidableEq, Repr

def Url.portOrKnownDefault (url : Url) : Option Nat :=
  url.port <|>
    if url.scheme = "http" ∨ url.scheme = "ws" then some 80
    else if url.scheme = "https" ∨ url.scheme = "wss" then some 443
    else if url.scheme = "ftp" then some 21
    else none

def sameOrigin (left right : Url) : Prop :=
  left.scheme = right.scheme ∧ left.host = right.host ∧
    left.portOrKnownDefault = right.portOrKnownDefault

instance : DecidableRel sameOrigin := fun _ _ => inferInstanceAs (Decidable (_ ∧ _))

/-- Header fields by their names in lower case. -/
abbrev Headers := List (String × String)

structure Request where
  method : Method
  url : Url
  headers : Headers
  body : Option (List UInt8)
deriving DecidableEq, Repr

/-- A response, with the URL that its location leads to, if it can be read and joined. -/
structure Response where
  status : Nat
  location : Option Url
deriving DecidableEq, Repr

def Response.isRedirection (r : Response) : Bool := 300 ≤ r.status && r.status < 400

structure HttpSpec where
  method : Method
  url : Url
  headers : Headers
  body : Option (List UInt8)
  followRedirects : Bool

def removeHeaders (names : List String) (headers : Headers) : Headers :=
  headers.filter (fun h => h.1 ∉ names)

/-- The names and values that the HTTP library accepts. -/
structure HeaderRules where
  name : String → Bool
  value : String → Bool

/-- The fields in the order of their names; a later one replaces one of the same name. -/
def buildHeaders (rules : HeaderRules) (values : Headers) : Except String Headers :=
  values.foldlM (fun headers h =>
    if ¬ rules.name h.1 then .error s!"invalid header name: {h.1}"
    else if ¬ rules.value h.2 then .error "invalid header value"
    else .ok (removeHeaders [h.1.toLower] headers ++ [(h.1.toLower, h.2)])) []

/-! ## Hops -/

/-- The fields that do not cross origins. -/
def sensitiveHeaders : List String := ["authorization", "proxy-authorization", "cookie"]

/-- The fields that a hop to GET removes. -/
def droppedHeaders : List String := ["content-length", "content-type", "transfer-encoding"]

/-- The fields that describe a body. -/
def ContentHeader (name : String) : Prop :=
  name = "transfer-encoding" ∨ name.toList.take 8 = "content-".toList

def rewritesToGet (status : Nat) (method : Method) : Bool :=
  (status = 303 && method != .head) || ((status = 301 || status = 302) && method = .post)

/-- The fields that go along to the next URL. -/
def Request.headersTo (r : Request) (next : Url) : Headers :=
  if sameOrigin r.url next then r.headers else removeHeaders sensitiveHeaders r.headers

/-- The request after a hop. -/
def Request.redirect (r : Request) (status : Nat) (next : Url) : Request :=
  if rewritesToGet status r.method then
    ⟨.get, next, removeHeaders droppedHeaders (r.headersTo next), none⟩
  else { r with url := next, headers := r.headersTo next }

/-- The requests that are sent with their responses, while `left` redirects may be followed. A
request without a response failed. -/
def exchange (follow : Bool) :
    Nat → Request → List Response → List (Request × Option Response)
  | _, request, [] => [(request, none)]
  | left, request, response :: rest =>
    (request, some response) ::
      if follow && response.isRedirection then
        match left, response.location with
        | left + 1, some next => exchange follow left (request.redirect response.status next) rest
        | _, _ => []
      else []

def HttpSpec.isHttp (spec : HttpSpec) : Bool :=
  spec.url.scheme = "http" || spec.url.scheme = "https"

/-- The first request, or why the configuration fails. -/
def HttpSpec.request (rules : HeaderRules) (spec : HttpSpec) : Except String Request :=
  if ¬ spec.isHttp then .error "URL must be HTTP or HTTPS"
  else (buildHeaders rules spec.headers).map (fun headers =>
    ⟨spec.method, spec.url, headers, spec.body⟩)

/-- A configuration that fails sends nothing. -/
def HttpSpec.run (rules : HeaderRules) (spec : HttpSpec) (maxRedirects : Nat)
    (responses : List Response) : List (Request × Option Response) :=
  match spec.request rules with
  | .error _ => []
  | .ok request => exchange spec.followRedirects maxRedirects request responses

def Request.Carries (r : Request) (P : String → Prop) : Prop := ∃ h ∈ r.headers, P h.1

/-- The exchanges keep the bound, the credentials and the content where they belong. -/
structure Confined (origin : Url) (limit : Nat) (sent : List (Request × Option Response)) :
    Prop where
  few : sent.length ≤ limit + 1
  credentials : ∀ before hop after, sent = before ++ hop :: after →
    hop.1.Carries (· ∈ sensitiveHeaders) → ∀ other ∈ before ++ [hop], sameOrigin origin other.1.url
  content : ∀ before request response after, sent = before ++ (request, some response) :: after →
    rewritesToGet response.status request.method = true →
    ∀ later ∈ after, later.1.body = none ∧ ¬later.1.Carries ContentHeader

/-! ## Chains -/

/-- The exchanges that a request leads to, with at most `left` hops. -/
inductive Chain : Nat → Request → List (Request × Option Response) → Prop
  | last (left : Nat) (request : Request) (response : Option Response) :
    Chain left request [(request, response)]
  | hop {left : Nat} {request : Request} {response : Response} {next : Url}
    {sent : List (Request × Option Response)}
    (h : Chain left (request.redirect response.status next) sent) :
    Chain (left + 1) request ((request, some response) :: sent)

theorem chain_exchange (follow : Bool) (responses : List Response) :
    ∀ (left : Nat) (request : Request),
      Chain (if follow then left else 0) request (exchange follow left request responses) := by
  induction responses with
  | nil =>
    intro left request
    unfold exchange
    exact .last _ request none
  | cons response rest ih =>
    intro left request
    unfold exchange
    cases hfollow : follow && response.isRedirection with
    | false => exact .last _ request _
    | true =>
      obtain ⟨rfl, -⟩ := Bool.and_eq_true_iff.mp hfollow
      cases left with
      | zero => exact .last _ request _
      | succ left =>
        cases response.location with
        | none => exact .last _ request _
        | some next => exact .hop (ih left _)

section Chain

variable {left : Nat} {request : Request} {sent : List (Request × Option Response)}

namespace Request

variable {r : Request} {status : Nat} {next : Url} {h : String × String} {P : String → Prop}

@[simp] theorem url_redirect : (r.redirect status next).url = next := by
  unfold redirect
  split <;> rfl

theorem mem_headersTo_of_redirect (hmem : h ∈ (r.redirect status next).headers) :
    h ∈ r.headersTo next := by
  unfold redirect at hmem
  split at hmem
  · exact (List.mem_filter.mp hmem).1
  · exact hmem

theorem mem_of_mem_headersTo (hmem : h ∈ r.headersTo next) : h ∈ r.headers := by
  unfold headersTo at hmem
  split at hmem
  · exact hmem
  · exact (List.mem_filter.mp hmem).1

theorem not_carries_redirect (h : ¬r.Carries P) : ¬(r.redirect status next).Carries P :=
  fun ⟨x, hx, hname⟩ => h ⟨x, mem_of_mem_headersTo (mem_headersTo_of_redirect hx), hname⟩

/-- A hop to another origin leaves the credentials behind. -/
theorem not_carries_of_origin (h : ¬sameOrigin r.url next) :
    ¬(r.redirect status next).Carries (· ∈ sensitiveHeaders) := by
  rintro ⟨x, hx, hname⟩
  have hkept := mem_headersTo_of_redirect hx
  rw [headersTo, if_neg h] at hkept
  exact of_decide_eq_true (List.mem_filter.mp hkept).2 hname

theorem body_redirect_of_none (h : r.body = none) : (r.redirect status next).body = none := by
  unfold redirect
  split
  · rfl
  · exact h

end Request

theorem Chain.few (h : Chain left request sent) : sent.length ≤ left + 1 := by
  induction h with
  | last left request response => exact Nat.le_add_left 1 left
  | hop _ ih => exact Nat.succ_le_succ ih

/-- What every hop keeps holds along the chain. -/
theorem Chain.all {P : Request → Prop} (h : Chain left request sent)
    (hP : ∀ r status next, P r → P (r.redirect status next)) (hrequest : P request) :
    ∀ hop ∈ sent, P hop.1 := by
  induction h with
  | last left request response =>
    rintro hop hmem
    rw [List.mem_singleton.mp hmem]
    exact hrequest
  | hop _ ih =>
    rintro hop hmem
    rcases List.mem_cons.mp hmem with rfl | hmem
    · exact hrequest
    · exact ih (hP _ _ _ hrequest) hop hmem

theorem Chain.credentials (h : Chain left request sent) :
    ∀ before hop after, sent = before ++ hop :: after → hop.1.Carries (· ∈ sensitiveHeaders) →
      ∀ other ∈ before ++ [hop], sameOrigin request.url other.1.url := by
  induction h with
  | last left request response =>
    intro before hop after hsent _ other hother
    have hmem : other ∈ [(request, response)] := by rw [hsent]; grind
    rw [List.mem_singleton.mp hmem]
    exact ⟨rfl, rfl, rfl⟩
  | @hop left request response next sent hchain ih =>
    intro before hop after hsent hcarries other hother
    cases before with
    | nil =>
      obtain ⟨rfl, -⟩ := List.cons.inj hsent
      rw [List.mem_singleton.mp hother]
      exact ⟨rfl, rfl, rfl⟩
    | cons first before =>
      obtain ⟨rfl, hrest⟩ := List.cons.inj hsent
      -- without its credentials the chain could not carry them later on
      have horigin : sameOrigin request.url next := by
        by_contra hcross
        have hnone := @Chain.all _ _ _ (fun r => ¬r.Carries (· ∈ sensitiveHeaders)) hchain
          (fun _ _ _ => Request.not_carries_redirect) (Request.not_carries_of_origin hcross)
        exact hnone hop (by rw [hrest]; simp) hcarries
      rcases List.mem_cons.mp hother with rfl | hother
      · exact ⟨rfl, rfl, rfl⟩
      have hlater := ih before hop after hrest hcarries other hother
      rw [Request.url_redirect] at hlater
      exact ⟨horigin.1.trans hlater.1, horigin.2.1.trans hlater.2.1, horigin.2.2.trans hlater.2.2⟩

/-- Of the fields that describe a body the request has only those that a hop to GET removes. -/
def Request.Described (r : Request) : Prop :=
  ∀ h ∈ r.headers, ContentHeader h.1 → h.1 ∈ droppedHeaders

theorem Request.Described.redirect {r : Request} {status : Nat} {next : Url} (h : r.Described) :
    (r.redirect status next).Described :=
  fun x hx => h x (mem_of_mem_headersTo (mem_headersTo_of_redirect hx))

theorem Chain.content (h : Chain left request sent)
    (hkept : left = 0 ∨ request.method = .head ∨ request.Described) :
    ∀ before request response after, sent = before ++ (request, some response) :: after →
      rewritesToGet response.status request.method = true →
      ∀ later ∈ after, later.1.body = none ∧ ¬later.1.Carries ContentHeader := by
  induction h with
  | last left request response =>
    intro before q r after hsent _
    have hafter : after = [] := by
      have := congrArg List.length hsent
      simp only [List.length_append, List.length_cons, List.length_nil] at this
      exact List.length_eq_zero_iff.mp (by omega)
    simp [hafter]
  | @hop left request response next sent hchain ih =>
    intro before q r after hsent hrewrites
    replace hkept := hkept.resolve_left left.succ_ne_zero
    cases before with
    | cons first before =>
      refine ih (Or.inr (hkept.imp (fun hhead => ?_) .redirect)) before q r after
        (List.cons.inj hsent).2 hrewrites
      rw [Request.redirect, if_neg (by simp [rewritesToGet, hhead])]
      exact hhead
    | nil =>
      obtain ⟨heq, rfl⟩ := List.cons.inj hsent
      cases heq
      have hdescribed : request.Described :=
        hkept.resolve_left fun hhead => by simp [rewritesToGet, hhead] at hrewrites
      refine @Chain.all _ _ _ (fun x => x.body = none ∧ ¬x.Carries ContentHeader) hchain
        (fun _ _ _ h => ⟨Request.body_redirect_of_none h.1, Request.not_carries_redirect h.2⟩) ?_
      rw [Request.redirect, if_pos hrewrites]
      refine ⟨rfl, ?_⟩
      rintro ⟨x, hx, hname⟩
      obtain ⟨hx, hkept⟩ := List.mem_filter.mp hx
      exact of_decide_eq_true hkept (hdescribed x (Request.mem_of_mem_headersTo hx) hname)

end Chain

/-! ## Confinement -/

theorem HttpSpec.of_request {rules : HeaderRules} {spec : HttpSpec} {request : Request}
    (h : spec.request rules = .ok request) :
    request.url = spec.url ∧ request.method = spec.method := by
  obtain ⟨-, h⟩ := Except.guard_eq_ok.mp h
  obtain ⟨headers, -, rfl⟩ := Except.map_eq_ok.mp h
  exact ⟨rfl, rfl⟩

/-- **Credentials never leave the first origin** and requests are bounded, whatever the servers
answer. A hop to GET leaves the content behind exactly if it cannot happen or the target sets none
of the other fields that describe a body. -/
theorem confined_iff (rules : HeaderRules) (spec : HttpSpec) (maxRedirects : Nat) :
    (∀ responses, Confined spec.url maxRedirects (spec.run rules maxRedirects responses)) ↔
      (∃ reason, spec.request rules = .error reason) ∨ spec.followRedirects = false ∨
        maxRedirects = 0 ∨ spec.method = .head ∨
        ∃ request, spec.request rules = .ok request ∧ request.Described := by
  unfold HttpSpec.run
  cases hrequest : spec.request rules with
  | error reason => exact iff_of_true (fun _ => ⟨Nat.zero_le _, by simp, by simp⟩) (.inl ⟨_, rfl⟩)
  | ok request =>
    obtain ⟨hurl, hmethod⟩ := HttpSpec.of_request hrequest
    constructor
    · intro h
      by_contra hcondition
      simp only [not_or, Bool.not_eq_false] at hcondition
      obtain ⟨-, hfollow, hmax, hhead, hdescribed⟩ := hcondition
      obtain ⟨left, rfl⟩ := Nat.exists_eq_succ_of_ne_zero hmax
      -- one answer with status 303 that leads to the same URL
      have hrewrites : rewritesToGet 303 request.method = true := by
        simp [rewritesToGet, hmethod, hhead]
      have hcontent := (h [⟨303, some request.url⟩]).content [] request ⟨303, some request.url⟩
        [(request.redirect 303 request.url, none)]
        (by simp [hfollow, exchange, Response.isRedirection]) hrewrites _ List.mem_cons_self
      refine hdescribed ⟨request, rfl, fun x hx hname => ?_⟩
      by_contra hkept
      refine hcontent.2 ⟨x, ?_, hname⟩
      rw [Request.redirect, if_pos hrewrites]
      refine List.mem_filter.mpr ⟨?_, decide_eq_true hkept⟩
      rw [Request.headersTo, if_pos ⟨rfl, rfl, rfl⟩]
      exact hx
    · intro hcondition responses
      have hchain := chain_exchange spec.followRedirects responses maxRedirects request
      refine ⟨hchain.few.trans (by split <;> omega), hurl ▸ hchain.credentials, hchain.content ?_⟩
      rcases hcondition with ⟨reason, herror⟩ | hfollow | hmax | hhead | ⟨request', hok, hdescribed⟩
      · cases herror
      · exact Or.inl (if_neg (by simp [hfollow]))
      · exact Or.inl (by simp [hmax])
      · exact Or.inr (Or.inl (hmethod.trans hhead))
      · cases hok
        exact Or.inr (Or.inr hdescribed)

/-- Visible names and values. -/
def visibleText : HeaderRules where
  name := fun name => name != "" && name.toList.all (fun c => ' ' < c && c.toNat < 127)
  value := fun value => value.toList.all (fun c => ' ' ≤ c && c.toNat != 127)

/-- A compressed upload whose answer is "see other". -/
def compressedUpload : HttpSpec :=
  ⟨.post, ⟨"https", some "example.com", none, "/upload"⟩,
    [("Content-Encoding", "gzip"), ("Content-Type", "text/plain")], some [31, 139], true⟩

/-- The GET that follows still announces compressed content. -/
theorem compressedUpload_described : ¬Confined compressedUpload.url 10 (compressedUpload.run
    visibleText 10 [⟨303, some ⟨"https", some "example.com", none, "/done"⟩⟩]) := by
  intro h
  have hcontent := h.content [] _ _ _ rfl (by decide) _ List.mem_cons_self
  exact hcontent.2 ⟨("content-encoding", "gzip"), by decide +kernel, .inr (by decide)⟩

end Locron.Engine
