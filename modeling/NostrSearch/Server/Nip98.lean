import NostrSearch.Core.Event
import NostrSearch.Core.Text
import NostrSearch.Lib.Recall

/-!
# NIP-98 authentication

A request that changes something carries a signed event that names its method and URL and was made
within a minute. Two doors check this, the admin routes and the submissions, and each remembers the
ids it has seen, for a minute from their use: the admin routes from the first, the submissions from
the last.

The window of the timestamp is open in both directions. An event made a minute ahead is valid for
two minutes, and is forgotten halfway (`used_event_opens_again`). `single_use_iff` says when an
event is used once.

Base64, the event type with its signature check, and the URL parser are not part of this repository.
-/

namespace NostrSearch.Server

open NostrSearch.Core NostrSearch.Lib

/-- NIP-98 auth events older than this are refused. -/
def MAX_AGE_SECS : ℕ := 60

/-- kind for NIP-98 HTTP Auth. -/
def HTTP_AUTH_KIND : ℕ := 27235

/-! ## Requests -/

/-- `http::Method`. -/
inductive Method
  | options
  | get
  | post
  | put
  | delete
  | head
  | trace
  | connect
  | patch
  | extension (name : List Char)
deriving DecidableEq

namespace Method

def asStr : Method → List Char
  | options => "OPTIONS".toList
  | get => "GET".toList
  | post => "POST".toList
  | put => "PUT".toList
  | delete => "DELETE".toList
  | head => "HEAD".toList
  | trace => "TRACE".toList
  | connect => "CONNECT".toList
  | patch => "PATCH".toList
  | extension name => name

def isSafe : Method → Bool
  | get | head | options | trace => true
  | _ => false

end Method

structure Uri where
  path : String
  query : Option String
deriving DecidableEq

/-- A request, with the clock as it is read while the request is checked. -/
structure Request where
  method : Method
  /-- before any prefix is stripped -/
  uri : Uri
  /-- the `Authorization` header, if there is one that is text -/
  authorization : Option (List Char)
  /-- `unix_now()` where the timestamp of the event is checked -/
  now : ℕ
  /-- `unix_now()` where the submissions look up the id -/
  usedAt : ℕ

def Request.clock (req : Request) : List ℕ := [req.now, req.usedAt]

/-- `url::Url`, as far as it is asked. An opaque origin is equal to no origin. -/
structure Url where
  path : String
  queryPairs : List (String × String)
  origin : Option (String × String × ℕ)

/-- What the checks use of other packages. -/
structure AuthLib where
  /-- `general_purpose::STANDARD.decode` -/
  base64 : List Char → Option ByteArray
  /-- `Event::from_json` -/
  fromJson : String → Option NostrEvent
  /-- `Event::verify` -/
  verified : NostrEvent → Bool
  /-- `Url::parse` -/
  parseUrl : String → Option Url
  /-- `form_urlencoded::parse` -/
  formPairs : String → List (String × String)

/-! ## The checks -/

/-- `ok_or`. -/
def okOr {α : Type} (x : Option α) (msg : String) : Except String α :=
  match x with
  | some a => .ok a
  | none => .error msg

/-- The first tag called `name`, and of it the value. -/
def firstTag (ev : NostrEvent) (name : String) : Option String :=
  (ev.tags.find? fun t => decide (t[0]? = some name)).bind fun t => t[1]?

/-- `abs_diff`. -/
def absDiff (a b : ℕ) : ℕ := (a - b) + (b - a)

section checks

variable (lib : AuthLib)

def urlMatches (signed : String) (request : Uri) (origin : Option String) : Bool :=
  match lib.parseUrl signed with
  | none => false
  | some parsed =>
    let inOrder (p q : String × String) : Bool := decide (p.1 < q.1 ∨ p.1 = q.1 ∧ p.2 ≤ q.2)
    let signedQ := parsed.queryPairs.mergeSort inOrder
    let requestQ := (lib.formPairs (request.query.getD "")).mergeSort inOrder
    if parsed.path ≠ request.path then false
    else if signedQ ≠ requestQ then false
    else
      match origin.map lib.parseUrl with
      | none => true
      | some (some o) => parsed.origin.isSome && decide (parsed.origin = o.origin)
      | some none => false

/-- The event in the header. -/
def readEvent (authorization : Option (List Char)) : Except String NostrEvent := do
  let header ← okOr authorization "missing Authorization: Nostr <base64 event>"
  let b64 ← okOr ((stripPrefix "Nostr ".toList header).or (stripPrefix "nostr ".toList header))
    "expected the Nostr auth scheme"
  let bytes ← okOr (lib.base64 (trim b64)) "auth event is not valid base64"
  let json ← okOr (String.fromUTF8? bytes) "auth event is not valid utf-8"
  okOr (lib.fromJson json) "auth event is not a valid nostr event"

/-- The event names the method and the URL of the request. -/
def namesRequest (event : NostrEvent) (req : Request) (origin : Option String) :
    Except String Unit := do
  let u ← okOr (firstTag event "u") "auth event is missing the u tag"
  let signedMethod ← okOr (firstTag event "method") "auth event is missing the method tag"
  unless asciiLower signedMethod.toList = asciiLower req.method.asStr do
    throw "auth event method does not match the request"
  unless urlMatches lib u req.uri origin do
    throw "auth event u tag does not match this URL"

/-- `nip98::verify`. -/
def verify (req : Request) (origin : Option String) : Except String NostrEvent := do
  let event ← readEvent lib req.authorization
  unless lib.verified event do throw "bad signature"
  unless event.kind = HTTP_AUTH_KIND do throw "auth event must be kind 27235"
  unless absDiff event.createdAt req.now ≤ MAX_AGE_SECS do
    throw "auth event timestamp is outside the allowed window"
  namesRequest lib event req origin
  return event

structure AdminConfig where
  pubkeys : Finset String
  origin : Option String

/-- What `auth` checks before it looks up the id. -/
def adminEvent (cfg : AdminConfig) (req : Request) : Except String NostrEvent := do
  let event ← readEvent lib req.authorization
  unless lib.verified event do throw "bad signature"
  unless event.kind = HTTP_AUTH_KIND do throw "auth event must be kind 27235"
  unless event.pubkey ∈ cfg.pubkeys do throw "pubkey is not an admin"
  unless absDiff event.createdAt req.now ≤ MAX_AGE_SECS do
    throw "auth event timestamp is outside the allowed window"
  namesRequest lib event req cfg.origin
  return event

end checks

/-- A header that carries an event. -/
theorem readEvent_of {lib : AuthLib} {token : List Char} {json : String} {event : NostrEvent}
    (hbytes : lib.base64 (trim token) = some json.toUTF8) (hevent : lib.fromJson json = some event) :
    readEvent lib (some ("Nostr ".toList ++ token)) = .ok event := by
  have hstrip : stripPrefix "Nostr ".toList ("Nostr ".toList ++ token) = some token := by
    unfold stripPrefix
    rw [if_pos (List.isPrefixOf_iff_prefix.mpr (List.prefix_append _ _)), List.drop_left]
  have hutf8 : String.fromUTF8? json.toUTF8 = some json := dif_pos json.isValidUTF8
  simp only [readEvent, okOr, hstrip, Option.some_or, bind, Except.bind, hbytes, hutf8, hevent]

/-- An event that is in order. -/
theorem adminEvent_of {lib : AuthLib} {cfg : AdminConfig} {req : Request} {event : NostrEvent}
    (hread : readEvent lib req.authorization = .ok event) (hverified : lib.verified event = true)
    (hkind : event.kind = HTTP_AUTH_KIND) (hadmin : event.pubkey ∈ cfg.pubkeys)
    (hnow : absDiff event.createdAt req.now ≤ MAX_AGE_SECS)
    (hnames : namesRequest lib event req cfg.origin = .ok ()) :
    adminEvent lib cfg req = .ok event := by
  simp only [adminEvent, hread, hverified, hkind, hadmin, hnow, hnames, bind, Except.bind, if_true]
  rfl

/-! ## The two doors -/

structure AdminState where
  cfg : AdminConfig
  seen : Memory String

namespace AdminState

/-- An id that was used already is refused, and stays as it is. -/
def acceptOnce (st : AdminState) (id : String) (now : ℕ) : Bool × AdminState :=
  let seen := st.seen.retain MAX_AGE_SECS now
  if (seen id).isSome then (false, { st with seen := seen })
  else (true, { st with seen := seen.insert id now })

/-- The middleware of the admin routes: the error it answers, or the event by which the request goes
on, which a safe method does without. -/
def auth (lib : AuthLib) (st : AdminState) (req : Request) :
    Except String (Option NostrEvent) × AdminState :=
  if req.method.isSafe then (.ok none, st)
  else
    match adminEvent lib st.cfg req with
    | .error msg => (.error msg, st)
    | .ok event =>
      if req.method ≠ .get then
        let (fresh, st') := st.acceptOnce event.id req.now
        if fresh then (.ok (some event), st') else (.error "auth event already used", st')
      else (.ok (some event), st)

/-- The ids of the events by which state-changing requests go on, in turn. -/
def admitted (lib : AuthLib) : AdminState → List Request → List String
  | _, [] => []
  | st, req :: reqs =>
    let (answer, st') := st.auth lib req
    let rest := admitted lib st' reqs
    match answer with
    | .ok (some event) => event.id :: rest
    | _ => rest

/-- The node starts with nothing seen. -/
def new (cfg : AdminConfig) : AdminState := { cfg := cfg, seen := Memory.empty }

end AdminState

structure SubmitState where
  origin : Option String
  seen : Memory String

namespace SubmitState

/-- An id that was used already is refused, and its time is the time now. -/
def acceptOnce (st : SubmitState) (id : String) (now : ℕ) : Bool × SubmitState :=
  let seen := st.seen.retain MAX_AGE_SECS now
  ((seen id).isNone, { st with seen := seen.insert id now })

/-- The event by which the request goes on. Its key is what the caller gets. -/
def authenticate (lib : AuthLib) (st : SubmitState) (req : Request) :
    Except String NostrEvent × SubmitState :=
  match verify lib req st.origin with
  | .error msg => (.error msg, st)
  | .ok event =>
    if req.method ≠ .get then
      let (fresh, st') := st.acceptOnce event.id req.usedAt
      if fresh then (.ok event, st') else (.error "auth event already used", st')
    else (.ok event, st)

/-- The ids of the events by which requests other than GET go on, in turn. -/
def admitted (lib : AuthLib) : SubmitState → List Request → List String
  | _, [] => []
  | st, req :: reqs =>
    let (answer, st') := st.authenticate lib req
    let rest := admitted lib st' reqs
    match answer with
    | .ok event => if req.method ≠ .get then event.id :: rest else rest
    | .error _ => rest

def new (origin : Option String) : SubmitState := { origin := origin, seen := Memory.empty }

end SubmitState

/-! ## The memory of a door -/

section memory

variable {lib : AuthLib}

/-- When, by which event, a request comes as far as the id. -/
def AdminConfig.presented (lib : AuthLib) (cfg : AdminConfig) (req : Request) :
    Option (String × ℕ) :=
  if req.method.isSafe then none
  else
    match adminEvent lib cfg req with
    | .ok event => some (event.id, req.now)
    | .error _ => none

/-- The same for the submissions. -/
def submitPresented (lib : AuthLib) (origin : Option String) (req : Request) :
    Option (String × ℕ) :=
  if req.method = .get then none
  else
    match verify lib req origin with
    | .ok event => some (event.id, req.usedAt)
    | .error _ => none

/-- The admin routes keep the first time. -/
theorem AdminState.acceptOnce_eq (st : AdminState) (id : String) (now : ℕ) :
    st.acceptOnce id now =
      ((st.seen.present MAX_AGE_SECS (fun old _ => old) id now).1,
        { st with seen := (st.seen.present MAX_AGE_SECS (fun old _ => old) id now).2 }) := by
  unfold AdminState.acceptOnce Memory.present
  cases hseen : st.seen.retain MAX_AGE_SECS now id with
  | none => simp [hseen]
  | some t =>
    have hkept : (st.seen.retain MAX_AGE_SECS now).insert id t = st.seen.retain MAX_AGE_SECS now :=
      Function.update_eq_self_iff.mpr hseen.symm
    simp [hseen, hkept]

/-- The submissions keep the last time. -/
theorem SubmitState.acceptOnce_eq (st : SubmitState) (id : String) (now : ℕ) :
    st.acceptOnce id now =
      ((st.seen.present MAX_AGE_SECS (fun _ now => now) id now).1,
        { st with seen := (st.seen.present MAX_AGE_SECS (fun _ now => now) id now).2 }) := by
  unfold SubmitState.acceptOnce Memory.present
  cases hseen : st.seen.retain MAX_AGE_SECS now id with
  | none => simp [hseen]
  | some t => simp [hseen]

theorem AdminState.admitted_eq (st : AdminState) (reqs : List Request) :
    st.admitted lib reqs =
      Memory.accepted MAX_AGE_SECS (fun old _ => old) st.seen
        (reqs.filterMap (st.cfg.presented lib)) := by
  induction reqs generalizing st with
  | nil => rfl
  | cons req reqs ih =>
    rw [AdminState.admitted, AdminState.auth, List.filterMap_cons, AdminConfig.presented]
    cases hsafe : req.method.isSafe with
    | true => simp [ih]
    | false =>
      have hget : req.method ≠ .get := by
        intro heq
        rw [heq] at hsafe
        cases hsafe
      cases hevent : adminEvent lib st.cfg req with
      | error msg => simp [ih]
      | ok event =>
        simp only [Bool.false_eq_true, if_false, if_pos hget, st.acceptOnce_eq, Memory.accepted]
        obtain ⟨ok, seen⟩ := st.seen.present MAX_AGE_SECS (fun old _ => old) event.id req.now
        cases ok <;> simp [ih]

theorem SubmitState.admitted_eq (st : SubmitState) (reqs : List Request) :
    st.admitted lib reqs =
      Memory.accepted MAX_AGE_SECS (fun _ now => now) st.seen
        (reqs.filterMap (submitPresented lib st.origin)) := by
  induction reqs generalizing st with
  | nil => rfl
  | cons req reqs ih =>
    rw [SubmitState.admitted, SubmitState.authenticate, List.filterMap_cons, submitPresented]
    cases hevent : verify lib req st.origin with
    | error msg => simp [ih]
    | ok event =>
      by_cases hget : req.method = .get
      · simp [hget, ih]
      · simp only [if_neg hget, ne_eq, st.acceptOnce_eq, Memory.accepted]
        obtain ⟨ok, seen⟩ := st.seen.present MAX_AGE_SECS (fun _ now => now) event.id req.usedAt
        cases ok <;> simp [hget, ih]

/-- The times at which the clock lets a door look an id up. -/
theorem presented_sorted {f : Request → Option (String × ℕ)}
    (hf : ∀ req p, f req = some p → p.2 ∈ req.clock) {reqs : List Request}
    (hclock : (reqs.flatMap Request.clock).Pairwise (· ≤ ·)) :
    (reqs.filterMap f).Pairwise fun p q => p.2 ≤ q.2 := by
  rw [List.pairwise_flatMap] at hclock
  refine List.pairwise_filterMap.mpr (hclock.2.imp ?_)
  intro req req' hle p hp q hq
  exact hle _ (hf req p hp) _ (hf req' q hq)

theorem AdminConfig.presented_time {cfg : AdminConfig} {req : Request} {p : String × ℕ}
    (h : cfg.presented lib req = some p) : p.2 = req.now := by
  unfold AdminConfig.presented at h
  split at h
  · cases h
  · split at h
    · cases h
      rfl
    · cases h

theorem submitPresented_time {origin : Option String} {req : Request} {p : String × ℕ}
    (h : submitPresented lib origin req = some p) : p.2 = req.usedAt := by
  unfold submitPresented at h
  split at h
  · cases h
  · split at h
    · cases h
      rfl
    · cases h

end memory

/-- **When an event is used once.** At the admin routes, if and only if no two requests come with it
more than a minute apart, of those that are in order otherwise; at the submissions, if and only if no
two in turn do. -/
theorem single_use_iff (lib : AuthLib) {reqs : List Request}
    (hclock : (reqs.flatMap Request.clock).Pairwise (· ≤ ·)) (id : String) :
    (∀ cfg, ((AdminState.new cfg).admitted lib reqs).count id ≤ 1 ↔
        (timesOf id (reqs.filterMap (cfg.presented lib))).Pairwise
          fun t u => u ≤ t + MAX_AGE_SECS) ∧
      ∀ origin, ((SubmitState.new origin).admitted lib reqs).count id ≤ 1 ↔
        (timesOf id (reqs.filterMap (submitPresented lib origin))).IsChain
          fun t u => u ≤ t + MAX_AGE_SECS := by
  constructor
  · intro cfg
    have hsorted : (reqs.filterMap (cfg.presented lib)).Pairwise fun p q => p.2 ≤ q.2 :=
      presented_sorted (fun req p hp => by simp [Request.clock, cfg.presented_time hp]) hclock
    rw [AdminState.admitted_eq, AdminState.new, count_accepted _ _ hsorted]
    exact timesAccepted_first_le_one (timesOf_pairwise id hsorted)
  · intro origin
    have hsorted : (reqs.filterMap (submitPresented lib origin)).Pairwise fun p q => p.2 ≤ q.2 :=
      presented_sorted (fun req p hp => by simp [Request.clock, submitPresented_time hp]) hclock
    rw [SubmitState.admitted_eq, SubmitState.new, count_accepted _ _ hsorted]
    exact timesAccepted_last_le_one

/-! ## An event made a minute ahead -/

def resetUrl : String := "https://archive.v0l.io/admin/analyses/reset-all"

/-- A signed event for `POST /admin/analyses/reset-all`, made at 2023-11-17 01:01. -/
def resetEvent : NostrEvent where
  id := "004d2680afb6ac5c6f642cd2616979d31bd33d09e22d7ca5b268cefd6da3ffe7"
  pubkey := "f9308a019258c31049344f85f89d5229b531c845836f99b08601f113bce036f9"
  createdAt := 1700182860
  kind := 27235
  tags := [["u", resetUrl], ["method", "POST"]]
  content := ""
  sig := "b86ff5ef05a992a8c8dd869e925bd017ba36a0417fdcdd4d5bd668361aac83e9" ++
    "3ddc9548222ecfa34455825d7f12991ef8e83be7d8cfa3fd652130354c45e17a"

/-- The event as it is on the wire. -/
def resetJson : String :=
  "\x7b\"id\":\"004d2680afb6ac5c6f642cd2616979d31bd33d09e22d7ca5b268cefd6da3ffe7\"," ++
    "\"pubkey\":\"f9308a019258c31049344f85f89d5229b531c845836f99b08601f113bce036f9\"," ++
    "\"created_at\":1700182860,\"kind\":27235,\"tags\":[[\"u\"," ++
    "\"https://archive.v0l.io/admin/analyses/reset-all\"],[\"method\",\"POST\"]],\"content\":\"\"," ++
    "\"sig\":\"b86ff5ef05a992a8c8dd869e925bd017ba36a0417fdcdd4d5bd668361aac83e93" ++
    "ddc9548222ecfa34455825d7f12991ef8e83be7d8cfa3fd652130354c45e17a\"\x7d"

/-- The same in base64. -/
def resetToken : String :=
  "eyJpZCI6IjAwNGQyNjgwYWZiNmFjNWM2ZjY0MmNkMjYxNjk3OWQzMWJkMzNkMDllMjJkN2NhNWIyNjhjZWZk" ++
    "NmRhM2ZmZTciLCJwdWJrZXkiOiJmOTMwOGEwMTkyNThjMzEwNDkzNDRmODVmODlkNTIyOWI1MzFjODQ1ODM2" ++
    "Zjk5YjA4NjAxZjExM2JjZTAzNmY5IiwiY3JlYXRlZF9hdCI6MTcwMDE4Mjg2MCwia2luZCI6MjcyMzUsInRh" ++
    "Z3MiOltbInUiLCJodHRwczovL2FyY2hpdmUudjBsLmlvL2FkbWluL2FuYWx5c2VzL3Jlc2V0LWFsbCJdLFsi" ++
    "bWV0aG9kIiwiUE9TVCJdXSwiY29udGVudCI6IiIsInNpZyI6ImI4NmZmNWVmMDVhOTkyYThjOGRkODY5ZTky" ++
    "NWJkMDE3YmEzNmEwNDE3ZmRjZGQ0ZDViZDY2ODM2MWFhYzgzZTkzZGRjOTU0ODIyMmVjZmEzNDQ1NTgyNWQ3" ++
    "ZjEyOTkxZWY4ZTgzYmU3ZDhjZmEzZmQ2NTIxMzAzNTRjNDVlMTdhIn0="

/-- The packages, as they answer here. -/
def resetLib : AuthLib where
  base64 := fun b64 => if b64 = trim resetToken.toList then some resetJson.toUTF8 else none
  fromJson := fun json => if json = resetJson then some resetEvent else none
  verified := fun event => decide (event = resetEvent)
  parseUrl := fun url =>
    if url = resetUrl then
      some { path := "/admin/analyses/reset-all", queryPairs := []
             origin := some ("https", "archive.v0l.io", 443) }
    else none
  formPairs := fun _ => []

def resetAdmins : AdminConfig := { pubkeys := {resetEvent.pubkey}, origin := none }

/-- The request, at some time. -/
def resetAt (now : ℕ) : Request where
  method := .post
  uri := { path := "/admin/analyses/reset-all", query := none }
  authorization := some ("Nostr ".toList ++ resetToken.toList)
  now := now
  usedAt := now

theorem readEvent_reset (now : ℕ) :
    readEvent resetLib (resetAt now).authorization = .ok resetEvent := by
  have hauth : (resetAt now).authorization = some ("Nostr ".toList ++ resetToken.toList) := rfl
  have hbytes : resetLib.base64 (trim resetToken.toList) = some resetJson.toUTF8 := by
    simp only [resetLib, if_true]
  have hevent : resetLib.fromJson resetJson = some resetEvent := by
    simp only [resetLib, if_true]
  rw [hauth]
  exact readEvent_of hbytes hevent

theorem namesRequest_reset (now : ℕ) :
    namesRequest resetLib resetEvent (resetAt now) resetAdmins.origin = .ok () := by
  have hu : firstTag resetEvent "u" = some resetUrl := by decide
  have hmethod : firstTag resetEvent "method" = some "POST" := by decide
  have hurl : urlMatches resetLib resetUrl (resetAt now).uri resetAdmins.origin = true := by
    simp [urlMatches, resetLib, resetAt, resetAdmins]
  unfold namesRequest
  simp only [okOr, hu, hmethod, hurl, bind, Except.bind]
  rfl

theorem reset_presented {now : ℕ} (h : absDiff resetEvent.createdAt now ≤ MAX_AGE_SECS) :
    resetAdmins.presented resetLib (resetAt now) = some (resetEvent.id, now) := by
  have hsafe : (resetAt now).method.isSafe = false := rfl
  have hverified : resetLib.verified resetEvent = true := by
    simp only [resetLib, decide_true]
  have hadmin : resetEvent.pubkey ∈ resetAdmins.pubkeys := Finset.mem_singleton_self _
  have hevent : adminEvent resetLib resetAdmins (resetAt now) = .ok resetEvent :=
    adminEvent_of (readEvent_reset now) hverified rfl hadmin h (namesRequest_reset now)
  rw [AdminConfig.presented, hsafe, hevent]
  rfl

/-- Half a minute apart. -/
theorem used_once_in_time :
    ((AdminState.new resetAdmins).admitted resetLib [resetAt 1700182800, resetAt 1700182830]).count
      resetEvent.id ≤ 1 := by
  refine ((single_use_iff resetLib (by decide) resetEvent.id).1 resetAdmins).mpr ?_
  rw [List.filterMap_cons_some (reset_presented (by decide)),
    List.filterMap_cons_some (reset_presented (by decide))]
  decide

/-- A minute after its first use the event is forgotten, and valid. -/
theorem used_event_opens_again :
    (AdminState.new resetAdmins).admitted resetLib [resetAt 1700182800, resetAt 1700182861] =
      [resetEvent.id, resetEvent.id] := by
  rw [AdminState.admitted_eq, AdminState.new, List.filterMap_cons_some (reset_presented (by decide)),
    List.filterMap_cons_some (reset_presented (by decide))]
  decide

end NostrSearch.Server
