import Wrouter.Edges

/-!
# Reading a router back

A compiled router still says which routes went into it: its graph, symbols and dictionary are
enough to spell them out again, word for word. Compiling loses nothing, and routers that look
the same were compiled from the same routes.
-/
namespace Wrouter

open CLib

/-- The route in the dictionary, where a flag says that there is one. -/
def found (router : Router) (flag : Bool) (ref : Nat) (word : List Tok) : List Entry :=
  if flag then (terminalLookup router.terminals ref).toList.map fun r => (word, r) else []

/-- Everything below an edge, with the string of its symbol in front. -/
def under (tok : Bytes → Tok) (name : Option CString) (es : List Entry) : List Entry :=
  name.elim [] fun s => es.map (push (tok s.text))

/-- The routes from the node at `o` on, down to a depth. -/
def decodeNode (router : Router) (g : List Nat) : Nat → Nat → List Entry
  | 0, _ => []
  | depth + 1, o =>
    let word := cell g o
    let edges := readEdges g (edgeBase g o) (word &&& nodeLiteralsMask)
    found router (hasFlag word nodeFlagTerminal) o [.end_] ++
      edges.flatMap (fun e => under .literal (symbolLookup router.literals e.1)
        (decodeNode router g depth e.2)) ++
      (if hasFlag word nodeFlagHasParam then
        under .param (symbolLookup router.params (cell g (o + 1)))
          (decodeNode router g depth (cell g (o + 2)))
      else found router (hasFlag word nodeFlagHasWildcard) (cell g (o + 1)) [.wildcard, .end_]) ++
      found router (hasFlag word nodeFlagHasTrailing) (cell g (edgeBase g o - 1)) [.trailing]

/-- No path is longer than the graph. -/
def decodeRouter (router : Router) : List Entry :=
  match router.graph with
  | none => []
  | some g => decodeNode router g.data g.data.length 0

section Node

variable {L : Libc} {router : Router} {g : List Nat} {s : Segment} {o : Nat}

theorem found_route {ref : Nat} {route : Option Route} {word : List Tok}
    (h : ∀ r, route = some r → terminalLookup router.terminals ref = some r) :
    found router route.isSome ref word = route.toList.map fun r => (word, r) := by
  cases route with
  | none => rfl
  | some r =>
    rw [found, h r rfl]
    rfl

theorem under_label {sym : Symbols} {label : Bytes} (h : label ∈ sym.texts) (tok : Bytes → Tok)
    (es : List Entry) : under tok (symbolLookup sym (sym.symbolOf label)) es =
      es.map (push (tok label)) := by
  obtain ⟨c, hc, rfl⟩ := Option.map_eq_some_iff.mp (symbolLookup_symbolOf h)
  rw [hc]
  rfl

/-- A terminal node's flag says that its offset is in the dictionary. -/
theorem terminal_found (h : Packed L router g s o) :
    found router (hasFlag (cell g o) nodeFlagTerminal) o [.end_] =
      s.terminal.toList.map fun r => ([.end_], r) := by
  rw [h.word, word_terminal h.sound.node.count_le]
  refine found_route fun r hr => h.lookup ?_
  rw [terms_eq, hr]
  simp

theorem trailing_found (h : Packed L router g s o) :
    found router (hasFlag (cell g o) nodeFlagHasTrailing) (cell g (edgeBase g o - 1)) [.trailing] =
      s.trailing.toList.map fun r => ([.trailing], r) := by
  rw [h.word, word_trailing h.sound.node.count_le]
  refine found_route fun r hr => h.lookup ?_
  have hsome : s.trailing.isSome := by rw [hr]; rfl
  have hedge : edgeBase g o - 1 = s.trailingEdge o := by
    rw [h.edgeBase, Segment.literalBase, trailingWidth, if_pos hsome, Nat.add_sub_cancel]
  rw [hedge, h.trailingEdge hsome, terms_eq, hr]
  simp

/-- The special edge, if what lies below a parameter is read back. -/
theorem special_found (h : Packed L router g s o) {depth : Nat}
    (ih : ∀ p, s.special = .param p →
      (decodeNode router g depth (s.specialBase o)).Perm p.routes) :
    (if hasFlag (cell g o) nodeFlagHasParam then
        under .param (symbolLookup router.params (cell g (o + 1)))
          (decodeNode router g depth (cell g (o + 2)))
      else found router (hasFlag (cell g o) nodeFlagHasWildcard) (cell g (o + 1))
        [.wildcard, .end_]).Perm (routesSpecial s.special) := by
  have hmax := h.sound.node.count_le
  rw [h.word, word_param hmax, word_wildcard hmax]
  cases hc : s.special with
  | param p =>
    obtain ⟨hname, hnode⟩ := h.paramEdge hc
    rw [hname, hnode, under_label (h.param_mem hc)]
    exact (ih p hc).map _
  | wildcard r =>
    have hedge : cell g (o + 1) = s.specialBase o := by
      cases h.encodes with
      | node _ _ hw _ _ _ _ => exact (hw r hc).1
    have hlookup : terminalLookup router.terminals (s.specialBase o) = some r := by
      refine h.lookup ?_
      rw [terms_eq, hc]
      simp [termsSpecial]
    rw [hedge]
    simp [Special.isParam, Special.isWildcard, found, hlookup, routesSpecial]
  | _ => exact .refl _

/-- The routes behind all children, each decoded from its own place. -/
theorem placed_routes {l : List Segment} {o : Nat} {f : Segment × Nat → List Entry}
    (h : ∀ x ∈ placed o l, (f x).Perm (x.1.routes.map (push (.literal x.1.label)))) :
    ((placed o l).flatMap f).Perm (routesChildren l) := by
  induction l generalizing o with
  | nil => exact .refl _
  | cons c l ih =>
    obtain ⟨hc, hl⟩ := List.forall_mem_cons.mp h
    rw [placed, List.flatMap_cons, routesChildren]
    exact hc.append (ih hl)

/-- The literal edges, in the order of their symbols. -/
theorem children_found (h : Packed L router g s o) {depth : Nat}
    (ih : ∀ x ∈ placed (s.childBase o) s.children,
      (decodeNode router g depth x.2).Perm x.1.routes) :
    ((readEdges g (edgeBase g o) (cell g o &&& nodeLiteralsMask)).flatMap fun e =>
      under .literal (symbolLookup router.literals e.1) (decodeNode router g depth e.2)).Perm
        (routesChildren s.children) := by
  have hread : readEdges g (s.literalBase o) s.children.length =
      L.qsort edgeCmp (s.edges router.literals o) := by
    cases h.encodes with
    | node _ _ _ _ hs _ _ => exact hs
  rw [h.edgeBase, h.word, word_literals h.sound.node.count_le, hread]
  refine ((L.qsort_perm edgeCmp _).flatMap_right _).trans ?_
  rw [Segment.edges, List.flatMap_map]
  refine placed_routes fun x hx => ?_
  dsimp only
  rw [under_label (h.label_mem (placed_mem hx).1)]
  exact (ih x hx).map _

/-- Every node reads back as the routes of its subtree. -/
theorem decodeNode_packed (h : Packed L router g s o) {depth : Nat} (hdepth : s.size ≤ depth) :
    (decodeNode router g depth o).Perm s.routes := by
  induction depth generalizing s o with
  | zero =>
    rw [size_eq] at hdepth
    omega
  | succ depth ih =>
    have hsize := size_eq s
    rw [decodeNode, routes_eq, terminal_found h, trailing_found h]
    refine ((List.Perm.append ((List.Perm.refl _).append ?_) ?_).append (.refl _))
    · refine children_found h fun x hx => ih (h.child hx) ?_
      obtain ⟨-, hlo, hhi⟩ := placed_mem hx
      omega
    · refine special_found h fun p hp => ih (h.param hp) ?_
      have hparam : sizeSpecial s.special = 2 + p.size := by rw [hp]; rfl
      omega

end Node

/-- A compiled router reads back as the routes that were added, each once. -/
theorem decode_compiled (L : Libc) {options : Options} {routes : List (Bytes × Route)} {b : Builder}
    (h : Built options routes b) {router : Router} {w : World}
    (hc : (wrouterCompile L (some b) w).1 = some router) :
    (decodeRouter router).Perm (entries options.paramSyntax routes) := by
  obtain ⟨block, g, hgraph, hlen, -, -, hpacked⟩ := packed_of_compiled h.holds.1 (wrouterCompile_ok hc)
  unfold decodeRouter
  rw [hgraph]
  dsimp only
  exact (decodeNode_packed hpacked (Nat.le_of_eq hlen.symm)).trans h.holds.1.routes

/-- Four routes of every kind, read back from their cells. -/
theorem decode_compiled_mixed : ∃ b, Built plainOptions [(ascii "/a/:x", ⟨0, 1⟩), (ascii "/", ⟨0, 2⟩),
      (ascii "/b/*", ⟨0, 3⟩), (ascii "/b/c/", ⟨0, 4⟩)] b ∧
    ∃ router, (wrouterCompile .reference (some b) .empty).1 = some router ∧
      (decodeRouter router).Perm [([.literal (ascii "a"), .param (ascii "x"), .end_], ⟨0, 1⟩),
        ([.end_], ⟨0, 2⟩), ([.literal (ascii "b"), .wildcard, .end_], ⟨0, 3⟩),
        ([.literal (ascii "b"), .literal (ascii "c"), .trailing], ⟨0, 4⟩)] := by
  obtain ⟨b, hb, hcompiles⟩ := buildRoutes_any (P := fun b =>
    (wrouterCompile .reference (some b) .empty).1.isSome)
    (show (buildRoutes plainOptions [(ascii "/a/:x", ⟨0, 1⟩), (ascii "/", ⟨0, 2⟩),
      (ascii "/b/*", ⟨0, 3⟩), (ascii "/b/c/", ⟨0, 4⟩)] .empty).any fun r => _ by decide +kernel)
  obtain ⟨router, hrouter⟩ := Option.isSome_iff_exists.mp hcompiles
  have hwords : entries plainOptions.paramSyntax [(ascii "/a/:x", ⟨0, 1⟩), (ascii "/", ⟨0, 2⟩),
      (ascii "/b/*", ⟨0, 3⟩), (ascii "/b/c/", ⟨0, 4⟩)] =
      [([.literal (ascii "a"), .param (ascii "x"), .end_], ⟨0, 1⟩), ([.end_], ⟨0, 2⟩),
        ([.literal (ascii "b"), .wildcard, .end_], ⟨0, 3⟩),
        ([.literal (ascii "b"), .literal (ascii "c"), .trailing], ⟨0, 4⟩)] := by
    decide +kernel
  have hdecode := decode_compiled .reference hb hrouter
  rw [hwords] at hdecode
  exact ⟨b, hb, router, hrouter, hdecode⟩

end Wrouter
