import NostrSearch.Lib.Mass
import NostrSearch.Stats.Graph
import NostrSearch.Stats.Registry

/-!
# Pagerank

`refresh` reads the follow graph twice. The first pass collects the nodes, in a list that is sorted
and freed of duplicates whenever it has grown past a limit; the second packs the contact lists into
one array of indices, with an offset and a length for each node. The iteration runs over that.

Ranks are rational numbers here. When the list is compacted is a parameter: `first` is the first
limit, and `again` the next one, from the length that is left.
-/

namespace NostrSearch.Stats

open NostrSearch.Lib

def defaultMaxNodes : ℕ := 20000000

def DAMPING : ℚ := 17 / 20

def ITERATIONS : ℕ := 20

def KEEP_RANKS : ℕ := 1000000

/-- How much the list of nodes may grow before it is compacted. -/
def COMPACT_SLACK : ℕ := 1000000

structure Pagerank where
  ranks : Finmap (fun _ : Pubkey => ℚ)
  intervalSecs : ℕ
  maxNodes : ℕ
  /-- whether `attach` has given it the graph -/
  attached : Bool
  unhealthy : Option String

/-- The out-edges of all nodes in one array. -/
structure Adjacency where
  start : List ℕ
  deg : List ℕ
  dst : List ℕ

/-- `dedup`: of equal neighbours, one. -/
def dedup : List Pubkey → List Pubkey
  | [] => []
  | [a] => [a]
  | a :: b :: l => if a = b then dedup (b :: l) else a :: dedup (b :: l)

def compact (keys : List Pubkey) : List Pubkey :=
  dedup (keys.mergeSort fun a b => decide (keyLe a b))

namespace Pagerank

/-- The nodes found so far, and the limit of the list. -/
structure Scan where
  keys : List Pubkey
  compactAt : ℕ

def default : Pagerank :=
  { ranks := ∅
    intervalSecs := 24 * 3600
    maxNodes := defaultMaxNodes
    attached := false
    unhealthy := some "never refreshed" }

/-- One turn of the first pass. -/
def scanTurn (again : ℕ → ℕ) (s : Scan) (author : Pubkey) (f : Follows) : Scan :=
  let keys := s.keys ++ [author] ++ f.follows
  if s.compactAt < keys.length then
    { keys := compact keys, compactAt := again (compact keys).length }
  else { s with keys := keys }

def nodes (first : ℕ) (again : ℕ → ℕ) (g : GraphStore) : List Pubkey :=
  compact (g.forEach (scanTurn again) { keys := [], compactAt := first }).keys

/-- `binary_search` in the sorted keys, and the index as `u32`. -/
def indexOf (keys : List Pubkey) (pk : Pubkey) : Option ℕ :=
  (keys.idxOf? pk).map fun i => i % 2 ^ 32

/-- One turn of the second pass. -/
def packTurn (keys : List Pubkey) (adj : Adjacency) (author : Pubkey) (f : Follows) : Adjacency :=
  match indexOf keys author with
  | none => adj
  | some a =>
    let start := adj.start.set a adj.dst.length
    let dst := adj.dst ++ f.follows.filterMap (indexOf keys)
    { start := start
      deg := adj.deg.set a ((dst.length - start.getD a 0) % 2 ^ 32)
      dst := dst }

def pack (g : GraphStore) (keys : List Pubkey) : Adjacency :=
  g.forEach (packTurn keys)
    { start := List.replicate keys.length 0, deg := List.replicate keys.length 0, dst := [] }

/-- `&dst[s..s + d]` for a node. -/
def slice (adj : Adjacency) (a : ℕ) : List ℕ :=
  (adj.dst.drop (adj.start.getD a 0)).take (adj.deg.getD a 0)

/-- One turn over the nodes. -/
def spread (adj : Adjacency) (rank : List ℚ) (acc : List ℚ × ℚ) (a : ℕ) : List ℚ × ℚ :=
  let d := adj.deg.getD a 0
  if d = 0 then (acc.1, acc.2 + rank.getD a 0)
  else
    let share := DAMPING * rank.getD a 0 / d
    ((slice adj a).foldl (fun next b => next.modify b fun x => x + share) acc.1, acc.2)

/-- One iteration. -/
def iterate (n : ℕ) (adj : Adjacency) (rank : List ℚ) : List ℚ :=
  let base := (1 - DAMPING) / n
  let r := (List.range n).foldl (spread adj rank) (List.replicate n base, 0)
  let dangle := DAMPING * r.2 / n
  r.1.map fun v => v + dangle

/-- The ranks after so many iterations. -/
def rankAfter (n : ℕ) (adj : Adjacency) : ℕ → List ℚ
  | 0 => List.replicate n (1 / n)
  | k + 1 => iterate n adj (rankAfter n adj k)

/-- The best ranks. Which of equal ones are kept is open in the source. -/
def keepTop (ranked : List (Pubkey × ℚ)) : List (Pubkey × ℚ) :=
  if KEEP_RANKS < ranked.length then
    (ranked.mergeSort fun a b => decide (b.2 ≤ a.2)).take KEEP_RANKS
  else ranked

/-- `refresh`, with the limits of the first pass. -/
def refreshWith (first : ℕ) (again : ℕ → ℕ) (store : Option GraphStore) (p : Pagerank) :
    Pagerank :=
  match store with
  | none => { p with unhealthy := some "no graph attached; ranks not recomputed" }
  | some g =>
    let keys := nodes first again g
    let n := keys.length
    if p.maxNodes < n then
      { p with
        unhealthy := some ("graph has " ++ toString n ++ " nodes, over the " ++
          toString p.maxNodes ++ " cap; ranks not recomputed") }
    else if n = 0 then
      { p with unhealthy := some "graph is empty; ranks left as they were" }
    else
      let ranked := keepTop (keys.zip (rankAfter n (pack g keys) ITERATIONS))
      { p with
        ranks := ranked.foldl (fun m x => m.insert x.1 x.2) ∅
        unhealthy := none }

def refresh (store : Option GraphStore) (p : Pagerank) : Pagerank :=
  refreshWith COMPACT_SLACK (fun len => len * 2 + COMPACT_SLACK) store p

/-- `pagerank` as the registry sees it. The ranks it contributes are read by nothing here. -/
def analysis {ε : Type} (graph : ε → GraphStore) : DynAnalysis Pagerank ε where
  name := "pagerank"
  epoch := 0
  deps := ["follow_graph"]
  refreshInterval := some default.intervalSecs
  kinds := some []
  default := default
  attach := fun _ p => { p with attached := true }
  observe := fun _ _ ext p => (p, ext, false)
  refresh := fun ext p => p.refresh (if p.attached then some (graph ext) else none)
  contribute := fun _ w => w
  onReset := fun _ ext => ext
  restored := fun p => { p with attached := false, unhealthy := none }

end Pagerank

end NostrSearch.Stats
