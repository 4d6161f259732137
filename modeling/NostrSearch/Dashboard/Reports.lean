import NostrSearch.Dashboard.MergePatch
import NostrSearch.Server.Subscribers

/-!
# The reports page

`useReports` keeps the reports of a page live. It fetches each report whole, when the page opens and
every two minutes from then on, and merges the frames of the event stream into what it has. The two
come over connections of their own: a response is what was published when it was taken, and may
arrive at any time after that; the frames arrive in order.

The node is that of `Server.Reports`, without its subscriber, and nothing is reset. What goes over a
connection is text: an action in which something arrives has the text with it, as it is parsed, and
`Texts` says that it is the text of what was sent.
-/

namespace NostrSearch.Dashboard

open NostrSearch.Core NostrSearch.Lib NostrSearch.Stats NostrSearch.Server

/-- What is neither `null` nor an array or an object. -/
inductive Scalar
  | bool (b : Bool)
  | num (n : ℕ)
  | str (s : String)

def Scalar.json : Scalar → Json
  | bool b => .bool b
  | num n => .num n
  | str s => .str s

theorem Scalar.plain : Plain Scalar.json := by
  intro a
  cases a <;> exact ⟨nofun, nofun⟩

/-- A text of a value: serialized, and read again. -/
def TextOf (j : Json) (text : Doc Scalar) : Prop := text.Wf ∧ toJson Scalar.json text = j

/-- A response to `GET /reports/{name}` that is on its way. -/
structure Response where
  report : DeltaReport
  value : Json
  /-- how many frames of the report were drained since it was taken, a history variable -/
  since : ℕ

structure Page where
  data : DeltaReport → Option (JsVal Scalar)
  /-- whether the event stream is open -/
  live : Bool
  /-- frames of the stream that have not arrived -/
  frames : List (DeltaReport × Json)
  responses : List Response
  /-- whether a response for the report has arrived -/
  seeded : DeltaReport → Bool

/-- The node and the page. -/
structure Site where
  node : Server.Node
  page : Page
  /-- what is published has changes that are in no frame yet, a history variable -/
  ahead : DeltaReport → Bool

inductive Act
  /-- the writer takes an event from its queue -/
  | event (handed : DeltaReport → Option Observed)
  /-- a replay folds an event -/
  | replay (handed : DeltaReport → Option Observed)
  | commitTick
  | deltaTick
  /-- the next frame goes out -/
  | send
  /-- the node accepts the event stream -/
  | connect
  /-- the node answers a request for a report -/
  | take (i : DeltaReport)
  /-- one of the responses arrives -/
  | deliver (k : ℕ) (text : Doc Scalar)
  /-- the next frame arrives -/
  | receive (text : Doc Scalar)

namespace Site

variable (cfg : Parsers)

def step (n : Site) : Act → Option Site
  | .event handed => (n.node.step cfg (.event handed)).map fun node => { n with node := node }
  | .replay handed => (n.node.step cfg (.replay handed)).map fun node => { n with node := node }
  | .commitTick =>
    (n.node.step cfg .commitTick).map fun node =>
      { n with
        node := node
        ahead := fun i => n.ahead i || n.node.dirty && (n.node.drained cfg i).isSome }
  | .deltaTick =>
    (n.node.step cfg .deltaTick).map fun node =>
      { node := node
        page := { n.page with
          responses := n.page.responses.map fun r =>
            if (n.node.drained cfg r.report).isSome then { r with since := r.since + 1 } else r }
        ahead := fun _ => false }
  | .send =>
    (n.node.step cfg .send).map fun node =>
      { n with
        node := node
        page :=
          if n.page.live then { n.page with frames := n.page.frames ++ n.node.sending.take 1 }
          else n.page }
  | .connect => if n.page.live then none else some { n with page := { n.page with live := true } }
  | .take i =>
    (n.node.published i).map fun report =>
      { n with page := { n.page with
          responses := n.page.responses ++ [{ report := i, value := report, since := 0 }] } }
  | .deliver k text =>
    n.page.responses[k]?.map fun r =>
      { n with page := { n.page with
          data := Function.update n.page.data r.report (some (JsVal.parse text))
          seeded := Function.update n.page.seeded r.report true
          responses := n.page.responses.eraseIdx k } }
  | .receive text =>
    match n.page.frames with
    | [] => none
    | (i, _) :: rest =>
      some { n with page := { n.page with
          data := Function.update n.page.data i
            (some (mergePatch ((n.page.data i).getD .undefined) text))
          frames := rest } }

/-- A node that is up, and a page that opens. -/
def start (state : (i : DeltaReport) → i.State) : Site :=
  { node := Server.Node.boot cfg state
    page :=
      { data := fun _ => none, live := false, frames := [], responses := []
        seeded := fun _ => false }
    ahead := fun _ => false }

/-- The frames of a report that the page has still to get. -/
def pending (n : Site) (i : DeltaReport) : List Json :=
  Server.Node.framesOf i (n.page.frames ++ n.node.sending)

/-- Nothing is on its way. -/
def AtRest (n : Site) : Prop :=
  n.node.sending = [] ∧ n.page.frames = [] ∧ n.page.responses = []

/-- With nothing on its way, the page has what is published. A change that is published before its
frame is drained is on its way as well. -/
def KeptUp (n : Site) : Prop :=
  n.AtRest → ∀ i, n.page.seeded i = true → n.ahead i = false →
    ∃ report, n.page.data i = some (JsVal.parse report) ∧
      n.node.published i = some (toJson Scalar.json report)

/-- The text that arrives is that of what was sent. -/
def Texts (n : Site) : Act → Prop
  | .deliver k text => ∀ r, n.page.responses[k]? = some r → TextOf r.value text
  | .receive text => ∀ i patch rest, n.page.frames = (i, patch) :: rest → TextOf patch text
  | _ => True

/-- A response that arrives is not older than a frame that has gone past the page; no frame goes out
past a page that has the report and is not connected; and in a frame that is merged into a report,
each `null` meets an object, and each `__proto__` that is not `null` one that the report has. -/
def InTime (n : Site) : Act → Prop
  | .send => ∀ i patch rest, n.node.sending = (i, patch) :: rest →
      n.page.live = true ∨ n.page.seeded i = false
  | .deliver k _ => ∀ r, n.page.responses[k]? = some r → r.since ≤ (n.pending r.report).length
  | .receive text => ∀ i patch rest report, n.page.frames = (i, patch) :: rest →
      n.page.seeded i = true → n.page.data i = some (JsVal.parse report) →
        clean text report = true ∧ ownProto text report = true
  | _ => True

end Site

end NostrSearch.Dashboard
