import Mathlib.Data.List.Chain
import GrammarReach.Proofs.Closure.SparseGraph

/-!
Cutting a cycle down to a path through it.

The search for the path halts within its bound, since a node is queued once at most, and finds one where
there is one, since the table knows of every node on the way that it reaches the goal. Each node found
notes the one before it, so the way back leads through no node twice.
-/

namespace GrammarReach

open Relation (ReflTransGen)

namespace PathSearch

variable {previous : Std.TreeMap Node Node} {graph : CriticalGraph} {search next : PathSearch}
  {start goal node : Node} {depth : Nat}

/-- The number of steps that lead back from a node to the start. -/
inductive Depth (previous : Std.TreeMap Node Node) (start : Node) : Node → Nat → Prop
  | start : Depth previous start start 0
  | step {node before : Node} {depth : Nat} : node ≠ start → previous[node]? = some before →
      Depth previous start before depth → Depth previous start node (depth + 1)

theorem Depth.unique {other : Nat} (one : Depth previous start node depth)
    (two : Depth previous start node other) : depth = other := by
  induction one generalizing other with
  | start =>
    cases two with
    | start => rfl
    | step apart => exact absurd rfl apart
  | step apart noted _ ih =>
    cases two with
    | start => exact absurd rfl apart
    | step _ noted' two =>
      rw [noted] at noted'
      obtain rfl := Option.some.inj noted'
      rw [ih two]

/-- A way back is not touched when another node notes the one before it. -/
theorem Depth.insert {other before : Node} (deep : Depth previous start node depth)
    (fresh : other ∉ previous) : Depth (previous.insert other before) start node depth := by
  induction deep with
  | start => exact .start
  | @step node _ _ apart noted _ ih =>
    have differs : other ≠ node := by
      rintro rfl
      rw [Std.TreeMap.mem_iff_isSome_getElem?, noted] at fresh
      exact fresh rfl
    refine .step apart ?_ ih
    rw [Std.TreeMap.getElem?_insert, if_neg (mt Std.LawfulEqCmp.compare_eq_iff_eq.mp differs)]
    exact noted

/-- The nodes behind the start on the way to a node, each noted with the one before it. -/
structure Way (previous : Std.TreeMap Node Node) (start node : Node) (depth : Nat) (way : List Node) : Prop
    where
  last : (start :: way).getLast (by simp) = node
  distinct : (start :: way).Nodup
  chain : (start :: way).IsChain fun before node => previous[node]? = some before
  shallow : ∀ other ∈ start :: way, ∃ least ≤ depth, Depth previous start other least

private theorem Way.concat {way : List Node} {before : Node} (leads : Way previous start before depth way)
    (deep : Depth previous start before depth) (apart : node ≠ start)
    (noted : previous[node]? = some before) : Way previous start node (depth + 1) (way ++ [node]) where
  last := by simp
  distinct := by
    rw [← List.cons_append]
    refine List.nodup_append.mpr ⟨leads.distinct, List.nodup_singleton _, ?_⟩
    rintro other listed _ here rfl
    obtain rfl := List.mem_singleton.mp here
    obtain ⟨least, low, deep'⟩ := leads.shallow other listed
    have same := deep'.unique (.step apart noted deep)
    omega
  chain := by
    rw [← List.cons_append]
    refine List.isChain_append.mpr ⟨leads.chain, by simp, ?_⟩
    intro above listed below here
    simp only [List.head?_cons, Option.mem_def, Option.some.injEq] at here
    rw [List.getLast?_eq_some_getLast (by simp), leads.last] at listed
    simp only [Option.mem_def, Option.some.injEq] at listed
    rw [← listed, ← here]
    exact noted
  shallow := by
    rw [← List.cons_append]
    intro other listed
    rcases List.mem_append.mp listed with early | here
    · obtain ⟨least, low, deep'⟩ := leads.shallow other early
      exact ⟨least, Nat.le_succ_of_le low, deep'⟩
    · obtain rfl := List.mem_singleton.mp here
      exact ⟨depth + 1, Nat.le_refl _, .step apart noted deep⟩

/-- A way back is found within any bound that it keeps. -/
theorem Depth.exists_way (deep : Depth previous start node depth) :
    ∃ way, Way previous start node depth way ∧ ∀ bound path, depth < bound →
      trace previous start bound node path = some (start :: way ++ path) := by
  induction deep with
  | start =>
    refine ⟨[], ⟨rfl, by simp, by simp, fun other listed => ?_⟩, fun bound path enough => ?_⟩
    · exact ⟨0, Nat.le_refl 0, List.mem_singleton.mp listed ▸ .start⟩
    · obtain ⟨bound, rfl⟩ := Nat.exists_eq_succ_of_ne_zero (Nat.ne_of_gt enough)
      exact if_pos rfl
  | @step node before depth apart noted deep ih =>
    obtain ⟨way, leads, traced⟩ := ih
    refine ⟨way ++ [node], leads.concat deep apart noted, fun bound path enough => ?_⟩
    obtain ⟨bound, rfl⟩ := Nat.exists_eq_succ_of_ne_zero (Nat.ne_of_gt (Nat.zero_lt_of_lt enough))
    rw [trace, if_neg apart, noted]
    dsimp only
    rw [traced bound (node :: path) (Nat.lt_of_succ_lt_succ enough)]
    simp

/-- A search has come across a node. -/
def Found (start : Node) (search : PathSearch) (node : Node) : Prop :=
  node = start ∨ node ∈ search.previous

instance : DecidablePred (search.Found start) := fun node =>
  inferInstanceAs (Decidable (node = start ∨ node ∈ search.previous))

/-- A path search asks questions only, and notes for a node one that leads to it and has a way back. -/
structure Notes (graph : CriticalGraph) (start : Node) (search : PathSearch) : Prop where
  nodes : search.graph.nodes = graph.nodes
  table : search.graph.reachable = graph.reachable
  linked : ∀ node before, search.previous[node]? = some before → graph.Linked before node
  rooted : ∀ node, search.Found start node →
    ∃ depth ≤ search.previous.size, Depth search.previous start node depth

/-- Where an edge leads that a search has not come across. -/
private def unfound (graph : CriticalGraph) (start : Node) (search : PathSearch) : Finset Node :=
  (graph.links.image (·.2)).filter fun node => ¬ search.Found start node

/-- A search has looked at some nodes: it has found those that are known to reach the goal, and has queued
what it found. -/
structure Looks (graph : CriticalGraph) (start goal : Node) (nodes : List Node)
    (search next : PathSearch) : Prop where
  notes : Notes graph start next
  complete : ∀ node ∈ nodes, graph.knows node goal → next.Found start node
  grows : ∀ node, search.Found start node → next.Found start node
  queued : ∀ node, node ∈ next.queue.toList ↔
    node ∈ search.queue.toList ∨ (next.Found start node ∧ ¬ search.Found start node)
  balance : next.queue.toList.length + (unfound graph start next).card ≤
    search.queue.toList.length + (unfound graph start search).card

private theorem Looks.nothing (notes : Notes graph start search) :
    Looks graph start goal [] search search where
  notes := notes
  complete := by simp
  grows _ := id
  queued _ := by simp
  balance := Nat.le_refl _

private theorem Looks.trans {third : PathSearch} {early late : List Node}
    (one : Looks graph start goal early search next) (two : Looks graph start goal late next third) :
    Looks graph start goal (early ++ late) search third where
  notes := two.notes
  complete node listed known := by
    rcases List.mem_append.mp listed with inEarly | inLate
    · exact two.grows node (one.complete node inEarly known)
    · exact two.complete node inLate known
  grows node found := two.grows node (one.grows node found)
  queued node := by
    have first := one.grows node
    have second := two.grows node
    rw [two.queued, one.queued]
    tauto
  balance := two.balance.trans one.balance

/-- What a search looks at that it has found, or that is not known to reach the goal, it leaves alone. -/
private theorem Looks.skipped (notes : Notes graph start search) {other : Node}
    (skips : search.Found start other ∨ ¬ graph.knows other goal) (checks : Nat) :
    Looks graph start goal [other] search
      { search with graph := { search.graph with checks } } where
  notes := ⟨notes.nodes, notes.table, notes.linked, notes.rooted⟩
  complete := by
    intro node listed known
    obtain rfl := List.mem_singleton.mp listed
    exact skips.resolve_right (not_not_intro known)
  grows _ := id
  queued node := (or_iff_left fun both => both.2 both.1).symm
  balance := Nat.le_refl _

/-- A node is found for the first time: it notes the one that it was found from, and is queued. -/
private def noting (search : PathSearch) (from' other : Node) (checks : Nat) : PathSearch where
  graph := { search.graph with checks }
  previous := search.previous.insert other from'
  queue := search.queue.push other

private theorem found_noting (search : PathSearch) (from' other : Node) (checks : Nat) :
    (search.noting from' other checks).Found start node ↔ node = other ∨ search.Found start node := by
  simp only [noting, Found, Std.TreeMap.mem_insert, Std.LawfulEqCmp.compare_eq_iff_eq]
  rw [or_left_comm, @eq_comm _ other]

section Noting

variable {from' other : Node}

private theorem Notes.noting (notes : Notes graph start search) (here : search.Found start from')
    (link : graph.Linked from' other) (fresh : ¬ search.Found start other) (checks : Nat) :
    Notes graph start (search.noting from' other checks) where
  nodes := notes.nodes
  table := notes.table
  linked node before noted := by
    rw [PathSearch.noting, Std.TreeMap.getElem?_insert] at noted
    split at noted
    · next same =>
      obtain rfl := Std.LawfulEqCmp.eq_of_compare same
      obtain rfl := Option.some.inj noted
      exact link
    · exact notes.linked node before noted
  rooted node found := by
    obtain ⟨apart, unseen⟩ := not_or.mp fresh
    have size : (search.noting from' other checks).previous.size = search.previous.size + 1 := by
      rw [PathSearch.noting, Std.TreeMap.size_insert, if_neg (mt Std.TreeMap.mem_iff_contains.mpr unseen)]
    rw [size]
    rcases (found_noting ..).mp found with rfl | old
    · obtain ⟨depth, short, deep⟩ := notes.rooted from' here
      refine ⟨depth + 1, Nat.succ_le_succ short, .step apart ?_ (deep.insert unseen)⟩
      exact Std.TreeMap.getElem?_insert_self
    · obtain ⟨depth, short, deep⟩ := notes.rooted node old
      exact ⟨depth, Nat.le_succ_of_le short, deep.insert unseen⟩

private theorem card_unfound_noting (link : graph.Linked from' other)
    (fresh : ¬ search.Found start other) (checks : Nat) :
    (unfound graph start (search.noting from' other checks)).card < (unfound graph start search).card := by
  have left : unfound graph start (search.noting from' other checks) =
      (unfound graph start search).erase other := by
    ext node
    simp only [unfound, Finset.mem_filter, Finset.mem_erase, found_noting]
    tauto
  rw [left]
  refine Finset.card_erase_lt_of_mem (Finset.mem_filter.mpr ⟨Finset.mem_image.mpr ?_, fresh⟩)
  exact ⟨(from', other), (CriticalGraph.mem_links _ _ _).mpr link, rfl⟩

private theorem Looks.noting (notes : Notes graph start search) (here : search.Found start from')
    (link : graph.Linked from' other) (fresh : ¬ search.Found start other) (checks : Nat) :
    Looks graph start goal [other] search (search.noting from' other checks) where
  notes := notes.noting here link fresh checks
  complete node listed _ := (found_noting ..).mpr (.inl (List.mem_singleton.mp listed))
  grows node old := (found_noting ..).mpr (.inr old)
  queued node := by
    rw [found_noting, PathSearch.noting, Queue.toList_push, List.mem_append, List.mem_singleton]
    refine or_congr_right ⟨?_, fun both => both.1.resolve_right both.2⟩
    rintro rfl
    exact ⟨.inl rfl, fresh⟩
  balance := by
    have fewer := card_unfound_noting link fresh checks
    have longer : (search.noting from' other checks).queue.toList.length =
        search.queue.toList.length + 1 := by
      rw [PathSearch.noting, Queue.toList_push, List.length_append, List.length_singleton]
    omega

end Noting

private theorem discover_looks (notes : Notes graph start search) {from' other : Node}
    (here : search.Found start from') (link : graph.Linked from' other) :
    Looks graph start goal [other] search (search.discover start goal from' other) := by
  have passes : (other == start || search.previous.contains other) = true ↔ search.Found start other := by
    simp [Found]
  rw [discover]
  split
  · next seen => exact .skipped notes (.inl (passes.mp seen)) search.graph.checks
  · next unseen =>
    have fresh : ¬ search.Found start other := mt passes.mpr unseen
    have same := CriticalGraph.knows_congr notes.table other goal
    dsimp only [CriticalGraph.reaches]
    split
    · exact .noting notes here link fresh _
    · next unknown => exact .skipped notes (.inr (same ▸ unknown)) _

private theorem foldl_looks {from' : Node} (nodes : List Node) (notes : Notes graph start search)
    (here : search.Found start from') (links : ∀ other ∈ nodes, graph.Linked from' other) :
    Looks graph start goal nodes search (nodes.foldl (discover start goal from') search) := by
  induction nodes generalizing search with
  | nil => exact .nothing notes
  | cons other nodes ih =>
    obtain ⟨link, rest⟩ := List.forall_mem_cons.mp links
    have first : Looks graph start goal [other] search _ := discover_looks notes here link
    exact first.trans (ih first.notes (first.grows from' here) rest)

/-- Where a path search stands: what was found waits, or all that lies behind it on a way to the goal was
found too, and the goal waits as soon as it was found. -/
structure PathRun (graph : CriticalGraph) (start goal : Node) (search : PathSearch) : Prop where
  notes : Notes graph start search
  found : ∀ node ∈ search.queue.toList, search.Found start node
  closed : ∀ u, search.Found start u → u ∈ search.queue.toList ∨
    ∀ v, graph.Linked u v → graph.knows v goal → search.Found start v
  waits : search.Found start goal → goal ∈ search.queue.toList

/-- The next node leaves the queue, and everything that it leads to is looked at. -/
private theorem PathRun.look (run : PathRun graph start goal search) {queue : Queue Node}
    (listed : search.queue.toList = node :: queue.toList) (differs : node ≠ goal)
    (looks : Looks graph start goal (search.graph.successors node) { search with queue } next) :
    PathRun graph start goal next := by
  have stays : ∀ other, other ∈ queue.toList → other ∈ next.queue.toList := fun other waits =>
    (looks.queued other).mpr (.inl waits)
  have arrives : ∀ other, next.Found start other → ¬ search.Found start other →
      other ∈ next.queue.toList := fun other found unfound =>
    (looks.queued other).mpr (.inr ⟨found, unfound⟩)
  refine ⟨looks.notes, fun other waits => ?_, fun u found => ?_, fun found => ?_⟩
  · rcases (looks.queued other).mp waits with old | new
    · exact looks.grows other (run.found other (listed ▸ List.mem_cons_of_mem _ old))
    · exact new.1
  · by_cases old : search.Found start u
    · rcases run.closed u old with waits | served
      · rw [listed] at waits
        rcases List.mem_cons.mp waits with rfl | waits
        · refine .inr fun v link known => looks.complete v ?_ known
          exact (CriticalGraph.linked_congr run.notes.nodes u v).mpr link
        · exact .inl (stays u waits)
      · exact .inr fun v link known => looks.grows v (served v link known)
    · exact .inl (arrives u found old)
  · by_cases old : search.Found start goal
    · have waits := run.waits old
      rw [listed] at waits
      exact stays goal ((List.mem_cons.mp waits).resolve_left (Ne.symm differs))
    · exact arrives goal found old

private theorem step_keeps (run : PathRun graph start goal search)
    (stepped : step start goal search = some next) :
    PathRun graph start goal next ∧
      next.queue.toList.length + (unfound graph start next).card <
        search.queue.toList.length + (unfound graph start search).card := by
  unfold step at stepped
  cases popped : search.queue.pop? with
  | none => simp [popped] at stepped
  | some taken =>
    obtain ⟨node, queue⟩ := taken
    simp only [popped] at stepped
    rw [Option.ite_none_left_eq_some, Option.some.injEq] at stepped
    obtain ⟨differs, rfl⟩ := stepped
    have listed := Queue.toList_of_pop? popped
    let taken : PathSearch := { search with queue }
    have notes : Notes graph start taken :=
      ⟨run.notes.nodes, run.notes.table, run.notes.linked, run.notes.rooted⟩
    have here : taken.Found start node := run.found node (by simp [listed])
    have links : ∀ other ∈ search.graph.successors node, graph.Linked node other := fun other there =>
      (CriticalGraph.linked_congr notes.nodes node other).mp there
    have looks : Looks graph start goal (search.graph.successors node) taken _ :=
      foldl_looks (search.graph.successors node) notes here links
    refine ⟨run.look listed differs looks, ?_⟩
    have balance := looks.balance
    rw [listed, List.length_cons]
    exact Nat.lt_of_le_of_lt balance (by simp [taken, unfound, Found])

/-- A path search halts within its bound. -/
theorem run_halts (graph : CriticalGraph) (start goal : Node) :
    step start goal (run graph start goal) = none ∧ PathRun graph start goal (run graph start goal) := by
  let search : PathSearch := { graph, queue := .ofList [start] }
  have found : ∀ node, search.Found start node ↔ node = start := fun node => by simp [Found, search]
  have begins : PathRun graph start goal search :=
    { notes := ⟨rfl, rfl, by simp [search], fun node here => by
        obtain rfl := (found node).mp here
        exact ⟨0, Nat.zero_le _, .start⟩⟩
      found := fun node waits => (found node).mpr (by simpa [search] using waits)
      closed := fun u here => .inl (by simp [search, (found u).mp here])
      waits := fun here => by simp [search, (found goal).mp here] }
  refine ⟨?_, Loop.run_induction (fun _ _ run stepped => (step_keeps run stepped).1) _ search begins⟩
  refine Loop.step_run_eq_none (motive := PathRun graph start goal)
    (fun search => search.queue.toList.length + (unfound graph start search).card)
    (fun _ _ run stepped => step_keeps run stepped) _ search begins ?_
  have few : (unfound graph start search).card ≤ graph.edgeCount :=
    (Finset.card_filter_le _ _).trans (Finset.card_image_le.trans graph.card_links_le)
  have one : search.queue.toList.length = 1 := by simp [search]
  omega

/-- Where there is a path and the table tells what reaches the goal, the goal comes up. -/
private theorem head?_run (known : ∀ node, ReflTransGen graph.Linked node goal → graph.knows node goal)
    (path : ReflTransGen graph.Linked start goal) :
    (run graph start goal).queue.toList.head? = some goal := by
  obtain ⟨halted, searched⟩ := run_halts graph start goal
  set search := run graph start goal
  cases popped : search.queue.pop? with
  | some taken =>
    rw [Queue.toList_of_pop? popped, List.head?_cons]
    simpa [step, popped] using halted
  | none =>
    have dry := Queue.toList_of_pop?_eq_none popped
    -- With nothing left to visit, whatever lies on a way to the goal has been found.
    have all : ∀ node, ReflTransGen graph.Linked start node → ReflTransGen graph.Linked node goal →
        search.Found start node := by
      intro node before behind
      induction before with
      | refl => exact .inl rfl
      | @tail u v before link ih =>
        rcases searched.closed u (ih (.head link behind)) with waits | served
        · simp [dry] at waits
        · exact served v link (known v behind)
    simpa [dry] using searched.waits (all goal path .refl)

/-- A path search finds a path where there is one, if the table tells what reaches the goal. -/
theorem exists_path (known : ∀ node, ReflTransGen graph.Linked node goal → graph.knows node goal)
    (path : ReflTransGen graph.Linked start goal) :
    ∃ way, (run graph start goal).path? start goal = some (start :: way) ∧
      (start :: way).getLast (by simp) = goal ∧ (start :: way).Nodup ∧
      (start :: way).IsChain graph.Linked := by
  have first := head?_run known path
  obtain ⟨-, searched⟩ := run_halts graph start goal
  set search := run graph start goal
  have found := searched.found goal (List.mem_of_mem_head? first)
  obtain ⟨depth, short, deep⟩ := searched.notes.rooted goal found
  obtain ⟨way, leads, traced⟩ := deep.exists_way
  refine ⟨way, ?_, leads.last, leads.distinct, ?_⟩
  · rw [path?, if_pos first, traced _ [] (Nat.lt_succ_of_le short), List.append_nil]
  · exact leads.chain.imp fun before node noted => searched.notes.linked node before noted

end PathSearch

namespace CriticalGraph

/-- One graph is another one cut down to a path: between nodes of the path, only its steps are left. -/
structure CutsDown (path : List Node) (graph cut : CriticalGraph) : Prop where
  inside : ∀ u ∈ path, ∀ v ∈ path, cut.Linked u v ↔ [u, v] <:+: path
  outside : ∀ u v, ¬ (u ∈ path ∧ v ∈ path) → (cut.Linked u v ↔ graph.Linked u v)

private theorem pair_infix_cons (u v node : Node) (rest : List Node) :
    [u, v] <:+: node :: rest ↔ (u = node ∧ rest.head? = some v) ∨ [u, v] <:+: rest := by
  rw [List.infix_cons_iff, List.cons_prefix_cons]
  cases rest with
  | nil => simp
  | cons head tail => simp [@eq_comm _ head v]

private theorem isChain_of_steps {relation : Node → Node → Prop} {path : List Node}
    (each : ∀ u v, [u, v] <:+: path → relation u v) : path.IsChain relation := by
  induction path with
  | nil => exact .nil
  | cons node rest ih =>
    refine List.isChain_cons.mpr ⟨fun next first => ?_, ih fun u v steps => ?_⟩
    · exact each node next ((pair_infix_cons ..).mpr (.inl ⟨rfl, first⟩))
    · exact each u v ((pair_infix_cons ..).mpr (.inr steps))

/-- Dropping chords drops the edges from the given nodes to nodes of the path, but for the steps. -/
private theorem linked_dropChords (path rest : List Node) (distinct : rest.Nodup) (graph : CriticalGraph)
    (u v : Node) : (dropChords path rest graph).Linked u v ↔
      graph.Linked u v ∧ (u ∈ rest → v ∈ path → [u, v] <:+: rest) := by
  induction rest generalizing graph with
  | nil => simp [dropChords]
  | cons node rest ih =>
    obtain ⟨alone, distinctRest⟩ := List.nodup_cons.mp distinct
    let chords := (graph.successors node).filter fun next =>
      path.contains next && rest.head? != some next
    obtain ⟨links, -, -⟩ := graph.foldl_dropEdge node chords
    have chord : ∀ v, v ∈ chords ↔ graph.Linked node v ∧ v ∈ path ∧ rest.head? ≠ some v := fun v => by
      simp [chords, Linked]
    rw [dropChords, ih distinctRest, links, chord, pair_infix_cons, List.mem_cons]
    by_cases here : u = node
    · subst here
      have later : ¬ [u, v] <:+: rest := fun steps => alone (steps.subset List.mem_cons_self)
      simp only [alone, later, true_and, false_implies, and_true, or_false, true_implies]
      tauto
    · simp only [here, false_and, not_false_eq_true, and_true, false_or]

private theorem keeps_dropChords (path rest : List Node) (graph : CriticalGraph) :
    (graph.Mirrored → (dropChords path rest graph).Mirrored) ∧
      (dropChords path rest graph).reachable = graph.reachable := by
  induction rest generalizing graph with
  | nil => exact ⟨id, rfl⟩
  | cons node rest ih =>
    obtain ⟨-, mirrors, table⟩ := graph.foldl_dropEdge node
      ((graph.successors node).filter fun next => path.contains next && rest.head? != some next)
    obtain ⟨mirrorsRest, tableRest⟩ := ih _
    exact ⟨mirrorsRest ∘ mirrors, tableRest.trans table⟩

/-- Cutting down a cycle leaves, of the edges between the nodes of some path through it, that path. -/
theorem compactCycle_spec {graph : CriticalGraph} (mirrored : graph.Mirrored) {src dst : Node}
    (known : ∀ node, ReflTransGen graph.Linked node src → graph.knows node src)
    (cycle : ReflTransGen graph.Linked dst src) :
    (graph.compactCycle src dst).Mirrored ∧
      (graph.compactCycle src dst).reachable = graph.reachable ∧
      ∃ way, (dst :: way).getLast (by simp) = src ∧ (dst :: way).IsChain graph.Linked ∧
        CutsDown (dst :: way) graph (graph.compactCycle src dst) := by
  obtain ⟨way, found, last, distinct, chain⟩ := PathSearch.exists_path known cycle
  obtain ⟨-, searched⟩ := PathSearch.run_halts graph dst src
  set search := PathSearch.run graph dst src with searchIs
  have ran : graph.compactCycle src dst = dropChords (dst :: way) (dst :: way) search.graph := by
    rw [compactCycle, ← searchIs]
    simp only [found]
  obtain ⟨mirrors, table⟩ := keeps_dropChords (dst :: way) (dst :: way) search.graph
  have links : ∀ u v, (graph.compactCycle src dst).Linked u v ↔
      graph.Linked u v ∧ (u ∈ dst :: way → v ∈ dst :: way → [u, v] <:+: dst :: way) := fun u v => by
    rw [ran, linked_dropChords _ _ distinct, linked_congr searched.notes.nodes]
  refine ⟨?_, ?_, way, last, chain, fun u onPath v onPath' => ?_, fun u v apart => ?_⟩
  · rw [ran]
    exact mirrors (mirrored.congr searched.notes.nodes)
  · rw [ran]
    exact table.trans searched.notes.table
  · rw [links]
    refine ⟨fun both => both.2 onPath onPath', fun steps => ⟨?_, fun _ _ => steps⟩⟩
    simpa using chain.infix steps
  · rw [links, and_iff_left_of_imp]
    exact fun _ onPath onPath' => absurd ⟨onPath, onPath'⟩ apart

section CutsDown

variable {graph cut : CriticalGraph} {src dst u v : Node} {way : List Node}

/-- A graph that is cut down to a path of its own gains no edge. -/
theorem CutsDown.kept (cuts : CutsDown (dst :: way) graph cut)
    (chain : (dst :: way).IsChain graph.Linked) (link : cut.Linked u v) : graph.Linked u v := by
  by_cases onPath : u ∈ dst :: way ∧ v ∈ dst :: way
  · have steps := (cuts.inside u onPath.1 v onPath.2).mp link
    simpa using chain.infix steps
  · exact (cuts.outside u v onPath).mp link

/-- The edges that it loses are beside the path. -/
theorem CutsDown.dropped (cuts : CutsDown (dst :: way) graph cut)
    (last : (dst :: way).getLast (by simp) = src) (link : graph.Linked u v) : cut.Linked u v ∨
      (ReflTransGen cut.Linked u src ∧ ReflTransGen cut.Linked dst v) := by
  by_cases onPath : u ∈ dst :: way ∧ v ∈ dst :: way
  · have steps : (dst :: way).IsChain cut.Linked := by
      refine isChain_of_steps fun u v steps => (cuts.inside u ?_ v ?_).mpr steps
      · exact steps.subset List.mem_cons_self
      · exact steps.subset (List.mem_cons_of_mem _ List.mem_cons_self)
    refine .inr ⟨?_, ?_⟩
    · exact steps.backwards_cons_induction (ReflTransGen cut.Linked · src) way last
        (fun _ _ link rest => .head link rest) .refl u onPath.1
    · exact steps.induction (ReflTransGen cut.Linked dst ·) _
        (fun _ _ link rest => rest.tail link) (fun _ => .refl) v onPath.2
  · exact .inl ((cuts.outside u v onPath).mpr link)

end CutsDown

end CriticalGraph

end GrammarReach
