import Locron.Lib.Fallible
import Locron.Server.Middleware

set_option autoImplicit false

/-! # The router of the dashboard

The routes of the dashboard behind its layers. The middleware exempts requests by method and path,
the router chooses the handler by method and path; that the two agree on which handlers are public
is what makes `access_controlled` true.
-/

namespace Locron.Server

open Text (utf8)

/-! ## Routes -/

inductive Handler where
  | entry
  | assets
  | sessionCreate
  | sessionStatus
  | jobsList
  | jobsCreate
  | jobsShow
  | jobsUpdate
  | jobsRemove
  | jobsEnable
  | jobsDisable
  | jobsRun
  | jobsPreview
  | jobsWhy
  | schedulePreview
  | runsHistory
  | runsShow
  | runsCancel
  | runsLogs
  | runsStream
  | runsWhy
  | settingsGet
  | settingsPut
  | settingsDelete
  | exportDocument
  | importDocument
  | prune
  | diagnostics
deriving DecidableEq, Repr

/-- A segment of a route: a fixed text, or a parameter that takes one non-empty segment. -/
inductive Segment where
  | literal (text : List UInt8)
  | parameter
deriving DecidableEq

abbrev MethodRouter := List (Method × Handler)

/-- The segments after `/api/v1`. -/
def api (segments : List Segment) : List Segment :=
  .literal (utf8 "api") :: .literal (utf8 "v1") :: segments

def named (text : String) : Segment := .literal (utf8 text)

def apiRoutes : List (List Segment × MethodRouter) := [
  (api [named "session"], [(.post, .sessionCreate), (.get, .sessionStatus)]),
  (api [named "jobs"], [(.get, .jobsList), (.post, .jobsCreate)]),
  (api [named "jobs", .parameter],
    [(.get, .jobsShow), (.put, .jobsUpdate), (.delete, .jobsRemove)]),
  (api [named "jobs", .parameter, named "enable"], [(.post, .jobsEnable)]),
  (api [named "jobs", .parameter, named "disable"], [(.post, .jobsDisable)]),
  (api [named "jobs", .parameter, named "run"], [(.post, .jobsRun)]),
  (api [named "jobs", .parameter, named "preview"], [(.get, .jobsPreview)]),
  (api [named "jobs", .parameter, named "why"], [(.get, .jobsWhy)]),
  (api [named "schedule", named "preview"], [(.post, .schedulePreview)]),
  (api [named "runs"], [(.get, .runsHistory)]),
  (api [named "runs", .parameter], [(.get, .runsShow)]),
  (api [named "runs", .parameter, named "cancel"], [(.post, .runsCancel)]),
  (api [named "runs", .parameter, named "logs"], [(.get, .runsLogs)]),
  (api [named "runs", .parameter, named "stream"], [(.get, .runsStream)]),
  (api [named "runs", .parameter, named "why"], [(.get, .runsWhy)]),
  (api [named "settings"], [(.get, .settingsGet)]),
  (api [named "settings", .parameter], [(.put, .settingsPut), (.delete, .settingsDelete)]),
  (api [named "export"], [(.get, .exportDocument)]),
  (api [named "import"], [(.post, .importDocument)]),
  (api [named "prune"], [(.post, .prune)]),
  (api [named "diagnostics"], [(.get, .diagnostics)])]

/-- The parameters of a route, if the segments are those of the route. -/
def matchSegments : List Segment → List (List UInt8) → Option (List (List UInt8))
  | [], [] => some []
  | .literal text :: pattern, segment :: segments =>
    if segment = text then matchSegments pattern segments else none
  | .parameter :: pattern, segment :: segments =>
    if segment = [] then none else (matchSegments pattern segments).map (segment :: ·)
  | [], _ :: _ => none
  | _ :: _, [] => none

def slash : UInt8 := 47

/-- The route of a raw path; what is no route of the API is an asset. -/
def findRoute (path : List UInt8) : Option (MethodRouter × List (List UInt8)) :=
  match path.splitOn slash with
  | [] :: segments =>
    match apiRoutes.findSome? fun (pattern, methods) =>
        (matchSegments pattern segments).map (methods, ·) with
    | some found => some found
    | none =>
      if path = [slash] then some ([(.get, .entry)], [])
      else some ([(.get, .assets)], [path.drop 1])
  | _ => none

/-- A route for `GET` also takes `HEAD`. -/
def MethodRouter.handler (methods : MethodRouter) (method : Method) : Option Handler :=
  (methods.lookup method).or (if method = .head then methods.lookup .get else none)

/-! ## The server -/

inductive Outcome where
  | answered (answer : Answer)
  | notFound
  | methodNotAllowed
  | handled (handler : Handler) (parameters : List (List UInt8)) (request : Request)
deriving DecidableEq

structure Response where
  outcome : Outcome
  /-- the `Referrer-Policy` field -/
  referrerPolicy : Option String

def route (request : Request) : Outcome :=
  match findRoute request.path with
  | none => .notFound
  | some (methods, parameters) =>
    match methods.handler request.method with
    | none => .methodNotAllowed
    | some handler => .handled handler parameters request

/-- The layers in the order in which they run. -/
def passLayers (state : AppState) (request : Request) : Except Answer Request :=
  host state request >>= origin state >>= authenticate state >>= csrf state

def referrerPolicy (response : Response) : Response :=
  { response with referrerPolicy := some "no-referrer" }

def router (state : AppState) (request : Request) : Response :=
  referrerPolicy {
    outcome :=
      match passLayers state request with
      | .error answer => .answered answer
      | .ok request => route request
    referrerPolicy := none }

/-! ## Which handlers a path reaches -/

variable {state : AppState} {request request' : Request} {handler : Handler}
  {parameters : List (List UInt8)} {path : List UInt8} {methods : MethodRouter}

theorem apiRoutes_api : ∀ route ∈ apiRoutes, route.1.take 2 = api [] := by decide

theorem matchSegments_literal {text : List UInt8} {pattern : List Segment}
    {segments : List (List UInt8)}
    (h : matchSegments (.literal text :: pattern) segments = some parameters) :
    ∃ rest, segments = text :: rest ∧ matchSegments pattern rest = some parameters := by
  cases segments with
  | nil => cases h
  | cons segment rest =>
    obtain ⟨rfl, hrest⟩ := Option.ite_none_right_eq_some.mp h
    exact ⟨rest, rfl, hrest⟩

/-- The segments of a route of the API start as the route does. -/
theorem segments_of_matchSegments {pattern : List Segment} {segments : List (List UInt8)}
    (hpattern : pattern.take 2 = api []) (h : matchSegments pattern segments = some parameters) :
    ∃ rest, segments = utf8 "api" :: utf8 "v1" :: rest := by
  have hsplit : pattern = api (pattern.drop 2) := by
    rw [← List.take_append_drop 2 pattern, hpattern]
    rfl
  rw [hsplit] at h
  obtain ⟨after, rfl, hafter⟩ := matchSegments_literal h
  obtain ⟨rest, rfl, -⟩ := matchSegments_literal hafter
  exact ⟨rest, rfl⟩

/-- A path with these segments is a path below `/api/`. -/
theorem isPrefixOf_of_segments {second : List UInt8} {rest : List (List UInt8)}
    (h : path.splitOn slash = [] :: utf8 "api" :: second :: rest) :
    (utf8 "/api/").isPrefixOf path = true := by
  have hliteral : utf8 "/api/" = slash :: (utf8 "api" ++ [slash]) := by decide
  have hpath : path = utf8 "/api/" ++ [slash].intercalate (second :: rest) := by
    rw [← @List.intercalate_splitOn _ path _ _ slash, h, hliteral]
    simp [List.intercalate_cons_cons]
  rw [List.isPrefixOf_iff_prefix, hpath]
  exact List.prefix_append ..

/-- Outside of `/api/` there are only the pages. -/
theorem findRoute_cases (h : findRoute path = some (methods, parameters)) :
    (utf8 "/api/").isPrefixOf path = true ∨
      methods = [(.get, .entry)] ∨ methods = [(.get, .assets)] := by
  unfold findRoute at h
  split at h
  · next segments hsegments =>
    split at h
    · next found hfound =>
      cases h
      obtain ⟨⟨pattern, _⟩, hmem, hmatch⟩ := List.exists_of_findSome?_eq_some hfound
      obtain ⟨_, hmatch, -⟩ := Option.map_eq_some_iff.mp hmatch
      obtain ⟨rest, rfl⟩ := segments_of_matchSegments (apiRoutes_api _ hmem) hmatch
      exact Or.inl (isPrefixOf_of_segments hsegments)
    · split at h
      · cases h
        exact Or.inr (Or.inl rfl)
      · cases h
        exact Or.inr (Or.inr rfl)
  · cases h

theorem handler_of_page {page : Handler} {method : Method}
    (h : MethodRouter.handler [(.get, page)] method = some handler) : handler = page := by
  unfold MethodRouter.handler at h
  rcases Option.or_eq_some_iff.mp h with h | ⟨-, h⟩
  · cases method <;> cases h
    rfl
  obtain ⟨-, h⟩ := Option.ite_none_right_eq_some.mp h
  cases h
  rfl

theorem findRoute_sessionPath :
    findRoute sessionPath = some ([(.post, .sessionCreate), (.get, .sessionStatus)], []) := by
  decide

/-- A page outside of `/api/` fetched with `GET`. -/
def Request.IsPage (request : Request) (handler : Handler) : Prop :=
  request.method = .get ∧ (utf8 "/api/").isPrefixOf request.path = false ∧
    (handler = .entry ∨ handler = .assets)

theorem isPage_of_isEntry (h : route request = .handled handler parameters request')
    (hentry : request.isEntry = true) : request.IsPage handler := by
  unfold Request.isEntry at hentry
  obtain ⟨hget, hpath⟩ := Bool.and_eq_true_iff.mp hentry
  have hpath : (utf8 "/api/").isPrefixOf request.path = false := by simpa using hpath
  unfold route at h
  split at h
  · cases h
  next methods _ hroute =>
  split at h
  · cases h
  next page hpage =>
  cases h
  refine ⟨beq_iff_eq.mp hget, hpath, ?_⟩
  rcases findRoute_cases hroute with hapi | rfl | rfl
  · cases hpath.symm.trans hapi
  · exact Or.inl (handler_of_page hpage)
  · exact Or.inr (handler_of_page hpage)

/-- The middleware's exemption of the token paste is the handler that takes it. -/
theorem sessionCreate_of_isPaste (h : route request = .handled handler parameters request')
    (hpaste : request.isPaste = true) : handler = .sessionCreate := by
  unfold Request.isPaste at hpaste
  obtain ⟨hpost, hpath⟩ := Bool.and_eq_true_iff.mp hpaste
  unfold route at h
  rw [beq_iff_eq.mp hpath, findRoute_sessionPath, beq_iff_eq.mp hpost] at h
  cases h
  rfl

/-! ## Access control -/

/-- What a request must have to reach a handler that is not public. -/
structure Admitted (state : AppState) (request : Request) : Prop where
  host : request.FromLoopback
  origin : request.method.isUnsafe = true → request.SameOrigin state
  credentials : request.Bears state ∨
    request.HasSession state ∧ (request.method.isUnsafe = true → request.Echoes)

/-- Everything the layers establish, and the request they hand on. -/
theorem passLayers_eq_ok (h : passLayers state request = .ok request') :
    ∃ auth : AuthKind, request' = { request with auth := some auth } ∧ request.FromLoopback ∧
      (request.method.isUnsafe = true → request.SameOrigin state) ∧ auth.RestsOn state request ∧
      (auth = .unauthenticated → request.isEntry = true ∨ request.isPaste = true) ∧
      (auth = .session → request.method.isUnsafe = true → request.isPaste = true ∨
        request.Echoes) := by
  unfold passLayers at h
  obtain ⟨third, h, hcsrf⟩ := Except.bind_eq_ok.mp h
  obtain ⟨second, h, hauth⟩ := Except.bind_eq_ok.mp h
  obtain ⟨first, hhost, horigin⟩ := Except.bind_eq_ok.mp h
  obtain ⟨rfl, hloopback⟩ := host_eq_ok hhost
  obtain ⟨rfl, hsame⟩ := origin_eq_ok horigin
  obtain ⟨auth, rfl, hrests, hexempt⟩ := authenticate_eq_ok hauth
  obtain ⟨rfl, hechoes⟩ := csrf_eq_ok hcsrf
  refine ⟨auth, rfl, hloopback, hsame, hrests, hexempt, fun hsession => hechoes ?_⟩
  rw [hsession]

/-- **Access control.** Every handler other than the pages outside of `/api/` and the token paste is
reached only by requests that name this host, come from this origin if they change anything, and
carry the token, or the session cookie and for changes the echoed CSRF value. -/
theorem access_controlled
    (h : (router state request).outcome = .handled handler parameters request')
    (hpage : ¬ request.IsPage handler) (hpaste : handler ≠ .sessionCreate) :
    Admitted state request := by
  unfold router referrerPolicy at h
  dsimp only at h
  split at h
  · cases h
  next admitted hpassed =>
  obtain ⟨auth, rfl, hloopback, hsame, hrests, hexempt, hechoes⟩ := passLayers_eq_ok hpassed
  -- the layers look at the request as it came, the router at the one with the extension
  have hnotEntry : request.isEntry ≠ true := fun hentry =>
    hpage (@isPage_of_isEntry { request with auth := some auth } _ _ _ h hentry)
  have hnotPaste : request.isPaste ≠ true := fun hp =>
    hpaste (@sessionCreate_of_isPaste { request with auth := some auth } _ _ _ h hp)
  refine ⟨hloopback, hsame, ?_⟩
  cases auth with
  | unauthenticated =>
    rcases hexempt rfl with hentry | hp
    · exact absurd hentry hnotEntry
    · exact absurd hp hnotPaste
  | bearer => exact Or.inl hrests
  | session =>
    refine Or.inr ⟨hrests, fun hmutates => ?_⟩
    exact (hechoes rfl hmutates).resolve_left hnotPaste

/-- A server with a token of sixty-four zeros. -/
def zeros : AppState := ⟨List.replicate 64 48, 10824⟩

/-- A session that removes a job, with the CSRF value in the header. -/
def removal : Request where
  method := .delete
  path := utf8 "/api/v1/jobs/backup"
  headers := [(.host, utf8 "localhost:10824"), (.origin, utf8 "http://127.0.0.1:10824"),
    (.cookie, sessionCookie ++ equals :: List.replicate 64 48),
    (.cookie, csrfCookie ++ equals :: List.replicate 64 49), (.csrf, List.replicate 64 49)]
  body := .bytes []

theorem access_controlled_removal : Admitted zeros removal :=
  @access_controlled zeros removal { removal with auth := some .session } .jobsRemove
    [utf8 "backup"] (by decide +kernel) (by rintro ⟨hget, -⟩; cases hget) (by decide)

end Locron.Server
