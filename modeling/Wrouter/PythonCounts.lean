import Wrouter.Python

/-!
# Counted references of a Python program

Whatever the threads of a program do, each object is counted as often as something refers to it.
-/
namespace Wrouter

open CLib Counted

/-! ## What refers to what -/

def PyItem.edges : PyItem → List Nat
  | .builder b _ => positions b.erase.drops
  | .router r => positions (if r.release then r.holders else [])
  | .dispatcher _ _ k => [k]
  | .none | .object | .dict _ => []

/-- A builder can be used, with both callbacks and no fallback. -/
def PyItem.Fine : PyItem → Prop
  | .builder b _ => b.erase.Usable ∧ b.erase.retain = true ∧ b.erase.release = true ∧
    b.erase.fallback.ctx = 0
  | _ => True

def Python.items (p : Python) : List PyItem := p.cells.map Cell.item

/-- Each object is counted as often as `hand`, a variable, a lost reference or a live object refers
to it. Where the runtime refuses nothing, dictionaries and `None` are all that is lost. -/
structure Python.Sound (generous : Prop) (hand : List Nat) (p : Python) : Prop where
  balanced : Balanced PyItem.edges (hand ++ (p.vars ++ p.lost)) p.cells
  fine : ∀ item ∈ p.items, item.Fine
  linked : ∀ d owner k, .dispatcher d owner k ∈ p.items → p.items[k]? = some (.router d.data.router)
  none_ : p.items[0]? = some .none ∧ 0 ∈ p.lost
  dicts : ∀ k dict, p.items[k]? = some (.dict dict) → k ∈ p.lost
  grants : generous → ∀ granted ∈ p.grants, granted = true
  left : generous → ∀ k ∈ p.lost, k = 0 ∨ ∃ dict, p.items[k]? = some (.dict dict)

/-! ## Callbacks -/

theorem letGo_released {w w' : World} {installed : Bool} {ctxs : List Nat}
    (h : w'.callbacks = w.callbacks ++ released installed ctxs) :
    letGo w w' = positions (if installed then ctxs else []) := by
  rw [letGo, h, List.drop_left]
  cases installed with
  | true => exact List.filterMap_map
  | false => rfl

def PyItem.lostEdge (item : PyItem) (e : PyFault) : Prop :=
  e = .nullPointer ∧ ∃ b owner, item = .builder b owner ∧ b.erase.root.whole = false

/-- What an object gives back when it ends is what it referred to. -/
theorem dealloc_finishes :
    Finishes PyItem.edges dealloc PyItem.Fine PyItem.lostEdge where
  held := by
    intro item w is w' hfine h
    cases item with
    | builder b owner =>
      rw [dealloc] at h
      cases hfree : heapBuilderFree b w with
      | none => simp [hfree] at h
      | some v =>
        simp only [hfree, Except.ok.injEq, Prod.mk.injEq] at h
        obtain ⟨rfl, rfl⟩ := h
        rw [letGo_released (heapBuilderFree_calls hfree), hfine.2.2.1]
        exact .refl _
    | router router =>
      obtain ⟨rfl, rfl⟩ := Prod.mk.inj (Except.ok.inj h)
      rw [letGo_released (wrouterFree_calls router w)]
      exact .refl _
    | dispatcher d owner router =>
      obtain ⟨rfl, rfl⟩ := Prod.mk.inj (Except.ok.inj h)
      exact .refl _
    | _ =>
      obtain ⟨rfl, rfl⟩ := Prod.mk.inj (Except.ok.inj h)
      exact .refl _
  fails := by
    intro item w e hfine h
    cases item with
    | builder b owner =>
      rw [dealloc] at h
      split at h
      · rename_i hfree
        exact ⟨(Except.error.inj h).symm, b, owner, rfl, heapBuilderFree_eq_none hfine.2.2.1 hfree⟩
      · simp at h
    | _ => simp [dealloc] at h

theorem wrouterResolve_router {L : Libc} {d d' : Dispatcher} {path : Bytes} {ctx : Nat}
    (h : wrouterResolve L d path = some (ctx, d')) : d'.router = d.router := by
  obtain ⟨r, hr, hctx⟩ := Option.map_eq_some_iff.mp h
  have hr := (Dispatcher.request_some.mp hr).1
  rw [← (Prod.mk.inj hctx).2]
  unfold resolveRequest routeMatch at hr
  dsimp only at hr
  split at hr
  · obtain rfl := Option.some.inj hr
    rfl
  · obtain ⟨m, -, rfl⟩ := Option.map_eq_some_iff.mp hr
    rfl

/-! ## The books through one step -/

theorem setItem_eq {p : Python} {i : Nat} {x : Cell PyItem} (hx : p.cells[i]? = some x)
    (item : PyItem) :
    p.setItem i item = { p with cells := p.cells.set i { x with item := item } } := by
  have hcells : p.cells.modify i (fun x => { x with item := item }) =
      p.cells.set i { x with item := item } := by
    refine List.ext_getElem? fun k => ?_
    rw [List.getElem?_modify, List.getElem?_set]
    by_cases hik : i = k
    · subst hik
      obtain ⟨hlt, rfl⟩ := List.getElem?_eq_some_iff.mp hx
      simp [hlt]
    · simp [hik]
  rw [Python.setItem, hcells]

namespace Python

variable {generous : Prop} {hand : List Nat} {p : Python}

theorem items_getElem? (p : Python) (k : Nat) : p.items[k]? = p.cells[k]?.map Cell.item :=
  List.getElem?_map

section Sound

variable (h : p.Sound generous hand)

include h

/-- The world does not matter, nor do counts that agree again. -/
theorem Sound.update {hand' : List Nat} {cells : List (Cell PyItem)} {w : World}
    (hbalanced : Balanced PyItem.edges (hand' ++ (p.vars ++ p.lost)) cells)
    (hitems : cells.map Cell.item = p.cells.map Cell.item) :
    ({ p with cells := cells, world := w } : Python).Sound generous hand' := by
  have hsame : ({ p with cells := cells, world := w } : Python).items = p.items := hitems
  refine ⟨hbalanced, ?_, ?_, ?_, ?_, h.grants, ?_⟩ <;> rw [hsame]
  · exact h.fine
  · exact h.linked
  · exact h.none_
  · exact h.dicts
  · exact h.left

theorem Sound.world (w : World) : ({ p with world := w } : Python).Sound generous hand :=
  h.update h.balanced rfl

theorem Sound.alloc {p' : Python} {granted : Bool} (halloc : p.alloc = (granted, p')) :
    p'.Sound generous hand ∧ p'.cells = p.cells ∧ p'.vars = p.vars ∧ p'.lost = p.lost ∧
      p'.world = p.world ∧ (generous → granted = true) := by
  unfold Python.alloc at halloc
  split at halloc
  · obtain ⟨rfl, rfl⟩ := Prod.mk.inj halloc
    exact ⟨h, rfl, rfl, rfl, rfl, fun _ => rfl⟩
  · rename_i g rest hgrants
    obtain ⟨rfl, rfl⟩ := Prod.mk.inj halloc
    refine ⟨⟨h.balanced, h.fine, h.linked, h.none_, h.dicts, fun hgen granted hmem => ?_, h.left⟩,
      rfl, rfl, rfl, rfl, fun hgen => ?_⟩
    · exact h.grants hgen granted (by rw [hgrants]; exact List.mem_cons_of_mem _ hmem)
    · exact h.grants hgen g (by rw [hgrants]; exact List.mem_cons_self)

/-- One reference more, in hand. -/
theorem Sound.incref {i : Nat} (hlive : refsAt p.cells i ≠ 0) : ∃ cells,
    p.incref i = .ok { p with cells := cells } ∧
      ({ p with cells := cells } : Python).Sound generous (i :: hand) ∧
      cells.map Cell.item = p.cells.map Cell.item := by
  obtain ⟨cells, hshare, hbalanced, hitems, -⟩ := h.balanced.share PyFault.deadObject hlive
  refine ⟨cells, ?_, h.update hbalanced hitems, hitems⟩
  rw [Python.incref, hshare]
  rfl

/-- A reference in hand is let go of, unless it leads to a builder with a lost edge. -/
theorem Sound.decref {i : Nat} {hand' : List Nat} (hhand : hand.Perm (i :: hand')) :
    (∃ e, p.decref i = .error e ∧
        ∃ j x, Reached PyItem.edges [i] p.cells j ∧ p.cells[j]? = some x ∧ x.item.lostEdge e) ∨
      ∃ p', p.decref i = .ok p' ∧ p'.Sound generous hand' := by
  have hbalanced := h.balanced.perm (hhand.append_right _)
  obtain ⟨e, hdrop, hlost⟩ | ⟨cells, w, hdrop, hafter, hitems⟩ := Balanced.drop dealloc_finishes
    .deadObject [i] p.world hbalanced h.fine le_rfl
  · exact Or.inl ⟨e, by rw [Python.decref, hdrop]; rfl, hlost⟩
  · exact Or.inr ⟨_, by rw [Python.decref, hdrop]; rfl, h.update hafter hitems⟩

end Sound

/-- Callbacks that come to nothing. -/
theorem listen_none {w : World} (events : List Event)
    (hw : w.callbacks = p.world.callbacks ++ events)
    (hidle : ∀ event ∈ events, event = .retain 0 ∨ event = .release 0) :
    p.listen w = .ok { p with world := w } := by
  rw [Python.listen, hw, List.drop_left]
  generalize ({ p with world := w } : Python) = p'
  clear hw
  induction events with
  | nil => rfl
  | cons event events ih =>
    rw [List.foldlM_cons]
    rcases hidle event List.mem_cons_self with rfl | rfl <;>
      exact ih fun e he => hidle e (List.mem_cons_of_mem _ he)

theorem foldlM_onCallback (ctxs : List Nat) (p : Python) :
    (ctxs.map Event.retain).foldlM Python.onCallback p =
      ((positions ctxs).foldlM (share .deadObject) p.cells).map fun cells =>
        { p with cells := cells } := by
  induction ctxs generalizing p with
  | nil => rfl
  | cons ctx ctxs ih =>
    cases ctx with
    | zero => exact ih p
    | succ i =>
      have hpositions : positions ((i + 1) :: ctxs) = i :: positions ctxs := rfl
      rw [List.map_cons, List.foldlM_cons, hpositions, List.foldlM_cons]
      change (p.incref i >>= fun p => _) = _
      rw [Python.incref]
      cases share PyFault.deadObject p.cells i with
      | error e => rfl
      | ok cells => exact ih { p with cells := cells }

/-- Contexts that are retained. -/
theorem Sound.listen_retain (h : p.Sound generous hand) {w : World} {ctxs : List Nat}
    (hw : w.callbacks = p.world.callbacks ++ ctxs.map .retain)
    (hlive : ∀ i ∈ positions ctxs, refsAt p.cells i ≠ 0) : ∃ cells,
    p.listen w = .ok { p with cells := cells, world := w } ∧
      ({ p with cells := cells, world := w } : Python).Sound generous (positions ctxs ++ hand) ∧
      cells.map Cell.item = p.cells.map Cell.item := by
  obtain ⟨cells, hshares, hbalanced, hitems⟩ := h.balanced.shares PyFault.deadObject hlive
  rw [← List.append_assoc] at hbalanced
  refine ⟨cells, ?_, h.update hbalanced hitems, hitems⟩
  rw [Python.listen, hw, List.drop_left, foldlM_onCallback]
  dsimp only
  rw [hshares]
  rfl

/-- One more object. -/
theorem Sound.append (h : p.Sound generous hand) {hand' vars lost : List Nat} {n : Nat}
    {item : PyItem}
    (hbalanced : Balanced PyItem.edges (hand' ++ (vars ++ lost)) (p.cells ++ [⟨n, item⟩]))
    (hfine : item.Fine)
    (hlink : ∀ d owner k, item = .dispatcher d owner k → p.items[k]? = some (.router d.data.router))
    (hlost : ∀ k ∈ p.lost, k ∈ lost)
    (hdict : ∀ dict, item = .dict dict → p.cells.length ∈ lost)
    (hleft : ∀ k ∈ lost, k ∈ p.lost ∨ k = p.cells.length ∧ ∃ dict, item = .dict dict) :
    ({ p with cells := p.cells ++ [⟨n, item⟩], vars := vars, lost := lost } : Python).Sound
      generous hand' := by
  have hlength : p.items.length = p.cells.length := List.length_map _
  have hitems : (p.cells ++ [(⟨n, item⟩ : Cell PyItem)]).map Cell.item = p.items ++ [item] :=
    List.map_append
  have hold {k : Nat} {y : PyItem} (hk : p.items[k]? = some y) :
      (p.items ++ [item])[k]? = some y := by
    rw [List.getElem?_append_left (List.getElem?_eq_some_iff.mp hk).1, hk]
  refine ⟨hbalanced, ?_, ?_, ?_, ?_, h.grants, ?_⟩ <;> rw [Python.items, hitems]
  · intro y hy
    rcases List.mem_append.mp hy with hy | hy
    · exact h.fine y hy
    · rwa [List.mem_singleton.mp hy]
  · intro d owner k hk
    rcases List.mem_append.mp hk with hk | hk
    · exact hold (h.linked d owner k hk)
    · exact hold (hlink d owner k (List.mem_singleton.mp hk).symm)
  · exact ⟨hold h.none_.1, hlost 0 h.none_.2⟩
  · intro k dict hk
    rw [List.getElem?_append] at hk
    split at hk
    · exact hlost k (h.dicts k dict hk)
    · rename_i hle
      obtain ⟨hlt, hitem⟩ := List.getElem?_eq_some_iff.mp hk
      have hlast : k = p.cells.length := by
        rw [List.length_singleton] at hlt
        omega
      rw [hlast]
      exact hdict dict (by simpa using hitem)
  · intro hgen k hk
    rcases hleft k hk with hk | ⟨rfl, dict, rfl⟩
    · exact (h.left hgen k hk).imp_right fun ⟨dict, hdict⟩ => ⟨dict, hold hdict⟩
    · exact Or.inr ⟨dict, by rw [← hlength]; exact List.getElem?_concat_length⟩

/-- The new object of a variable. -/
theorem Sound.push {item : PyItem} (h : p.Sound generous (item.edges ++ hand)) (hfine : item.Fine)
    (hlink : ∀ d owner k, item = .dispatcher d owner k → p.items[k]? = some (.router d.data.router))
    (hdict : ∀ dict, item ≠ .dict dict) : (p.push item).Sound generous hand := by
  have hbalanced := h.balanced
  rw [List.append_assoc] at hbalanced
  refine h.append ((hbalanced.push 0).perm ?_) hfine hlink (fun _ hk => hk)
    (fun dict heq => absurd heq (hdict dict)) (fun _ hk => Or.inl hk)
  have hmiddle : (hand ++ p.vars ++ p.cells.length :: p.lost).Perm
      (p.cells.length :: (hand ++ p.vars ++ p.lost)) := List.perm_middle
  simpa [List.append_assoc] using hmiddle.symm

/-- References that nobody will give back. -/
theorem Sound.leave {held : List Nat} (h : p.Sound generous (held ++ hand))
    (hrefused : ¬ generous) : ({ p with lost := p.lost ++ held } : Python).Sound generous hand := by
  refine ⟨h.balanced.perm ?_, h.fine, h.linked, h.none_.imp_right (List.mem_append_left _),
    fun k dict hk => List.mem_append_left _ (h.dicts k dict hk), h.grants,
    fun hgen => absurd hgen hrefused⟩
  have hlast : (held ++ (hand ++ p.vars ++ p.lost)).Perm (hand ++ p.vars ++ p.lost ++ held) :=
    List.perm_append_comm
  simpa [List.append_assoc] using hlast

end Python

/-- Objects whose insides change; they stay what they are. -/
def PyItem.changes : PyItem → Bool
  | .builder _ _ | .dispatcher _ _ _ => true
  | _ => false

namespace Python

variable {generous : Prop} {hand : List Nat} {p : Python}

/-- An object that takes over more references. -/
theorem Sound.setItem {more : List Nat} (h : p.Sound generous (more ++ hand)) {i : Nat}
    {x : Cell PyItem} (hx : p.cells[i]? = some x) (hlive : x.refs ≠ 0) {item : PyItem}
    (hold : x.item.changes = true) (hnew : item.changes = true)
    (hperm : item.edges.Perm (more ++ x.item.edges)) (hfine : item.Fine)
    (hlink : ∀ d owner k, item = .dispatcher d owner k →
      p.items[k]? = some (.router d.data.router)) :
    (p.setItem i item).Sound generous hand := by
  have hbalanced := h.balanced
  rw [List.append_assoc] at hbalanced
  have hitems : (p.setItem i item).items = p.items.set i item := by
    rw [setItem_eq hx, Python.items, List.map_set]
    rfl
  have hlt : i < p.items.length := by
    rw [Python.items, List.length_map]
    exact (List.getElem?_eq_some_iff.mp hx).1
  have hsame {k : Nat} {y : PyItem} (hy : y.changes = false) :
      (p.items.set i item)[k]? = some y ↔ p.items[k]? = some y := by
    rw [List.getElem?_set]
    by_cases hik : i = k
    · subst hik
      rw [if_pos rfl, if_pos hlt, items_getElem?, hx]
      refine ⟨fun heq => ?_, fun heq => ?_⟩
      · rw [Option.some.inj heq, hy] at hnew
        exact absurd hnew (by simp)
      · rw [Option.some.inj heq, hy] at hold
        exact absurd hold (by simp)
    · rw [if_neg hik]
  have hafter := hbalanced.replace hx hlive hperm
  rw [setItem_eq hx] at hitems ⊢
  refine ⟨hafter, ?_, ?_, ?_, ?_, h.grants, ?_⟩ <;> rw [hitems]
  · intro y hy
    rcases List.mem_or_eq_of_mem_set hy with hy | rfl
    · exact h.fine y hy
    · exact hfine
  · intro d owner k hk
    rw [hsame rfl]
    rcases List.mem_or_eq_of_mem_set hk with hk | heq
    · exact h.linked d owner k hk
    · exact hlink d owner k heq.symm
  · exact h.none_.imp_left (hsame rfl).mpr
  · exact fun k dict hk => h.dicts k dict ((hsame rfl).mp hk)
  · intro hgen k hk
    exact (h.left hgen k hk).imp_right fun ⟨dict, hdict⟩ => ⟨dict, (hsame rfl).mpr hdict⟩

/-- The object of a variable is there. -/
theorem Sound.look (h : p.Sound generous hand) {v i : Nat} {item : PyItem}
    (hlook : p.look v = some (i, item)) :
    ∃ x, p.cells[i]? = some x ∧ x.refs ≠ 0 ∧ x.item = item ∧ p.items[i]? = some item := by
  unfold Python.look at hlook
  cases hi : p.vars[v]? with
  | none => simp [hi] at hlook
  | some k =>
    cases hx : p.cells[k]? with
    | none => simp [hi, hx] at hlook
    | some x =>
      simp only [hi, hx, bind, Option.bind, Option.some.injEq, Prod.mk.injEq] at hlook
      obtain ⟨rfl, rfl⟩ := hlook
      have hlive := h.balanced.live_of_mem
        (List.mem_append_right hand (List.mem_append_left p.lost (List.mem_of_getElem? hi)))
      rw [refsAt_eq hx] at hlive
      exact ⟨x, hx, hlive, rfl, by rw [items_getElem?, hx]; rfl⟩

/-! ## The calls one by one -/

/-- A call goes wrong in such a way, or the books stay right. -/
def Keeps (generous : Prop) (wrong : PyFault → Prop) (r : Except PyFault (PyReply × Python)) :
    Prop :=
  (∃ e, r = .error e ∧ wrong e) ∨ ∃ reply p, r = .ok (reply, p) ∧ p.Sound generous []

theorem Sound.keeps {wrong : PyFault → Prop} (h : p.Sound generous []) (reply : PyReply) :
    Keeps generous wrong (.ok (reply, p)) := Or.inr ⟨reply, p, rfl, h⟩

theorem Keeps.imp {wrong wrong' : PyFault → Prop} {r : Except PyFault (PyReply × Python)}
    (h : Keeps generous wrong r) (hwrong : ∀ e, wrong e → wrong' e) : Keeps generous wrong' r :=
  Or.imp_left (fun ⟨e, hfail, he⟩ => ⟨e, hfail, hwrong e he⟩) h

theorem pyBuilderNew_keeps (thread : Nat) (arg : Option (Option ParamSyntax))
    (h : p.Sound generous []) :
    Keeps generous (fun e => e = .nullPointer ∧ rootRefused p.world.answers)
      (pyBuilderNew thread arg p) := by
  unfold pyBuilderNew
  rcases hfirst : p.alloc with ⟨_ | _, p₁⟩ <;> obtain ⟨h₁, -, -, -, hworld₁, -⟩ := h.alloc hfirst
  · exact h₁.keeps _
  dsimp only
  rcases hsecond : p₁.alloc with ⟨_ | _, p₂⟩ <;>
    obtain ⟨h₂, -, -, -, hworld₂, -⟩ := h₁.alloc hsecond
  · exact h₂.keeps _
  dsimp only
  split
  · exact h₂.keeps _
  rename_i paramSyntax _
  rcases hcreate : heapBuilderCreate (builderOptions paramSyntax) p₂.world with _ | ⟨_ | b, w⟩
  · rw [← hworld₁, ← hworld₂]
    exact Or.inl ⟨_, rfl, rfl, (heapBuilderCreate_eq_none.mp hcreate).2⟩
  · have hcalls := heapBuilderCreate_none rfl hcreate
    dsimp only
    rw [listen_none [] (hcalls.trans (List.append_nil _).symm) (by simp)]
    exact (h₂.world w).keeps _
  · have hbuilder := heapBuilderCreate_erase hcreate
    obtain ⟨hfresh, hcalls, -⟩ := wrouterBuilderCreate_fresh hbuilder
    dsimp only
    rw [listen_none _ hcalls (by simp [retained, builderOptions])]
    have hdrops : b.erase.drops = [0] := by rw [hfresh]; rfl
    have hedges : (PyItem.builder b thread).edges = [] := by
      rw [PyItem.edges, hdrops]
      rfl
    have hnew : ({ p₂ with world := w } : Python).Sound generous
        ((PyItem.builder b thread).edges ++ []) := by
      rw [hedges]
      exact h₂.world w
    refine (hnew.push ?_ (by simp) (by simp)).keeps _
    refine ⟨fun _ => ⟨[], (wrouterBuilderCreate_holds hbuilder).1⟩, ?_⟩
    rw [hfresh]
    exact ⟨rfl, rfl, rfl⟩

theorem positions_append (l m : List Nat) : positions (l ++ m) = positions l ++ positions m :=
  List.filterMap_append

theorem look_items (p : Python) (v : Nat) :
    p.look v = (p.vars[v]?).bind fun i => (p.items[i]?).map fun item => (i, item) := by
  unfold Python.look
  cases hi : p.vars[v]? with
  | none => rfl
  | some i =>
    change ((p.cells[i]?).bind fun x => some (i, x.item)) = (p.items[i]?).map _
    rw [items_getElem?]
    cases p.cells[i]? <;> rfl

/-- Adding a route never goes wrong, whatever it replies. -/
theorem pyBuilderAdd_keeps (thread v : Nat) (pattern : Bytes) (ctx : Nat)
    (h : p.Sound generous []) :
    Keeps generous (fun _ => False) (pyBuilderAdd thread v pattern ctx p) := by
  unfold pyBuilderAdd
  split
  · rename_i i b owner k item hv hctx
    obtain ⟨-, -, -, -, hb⟩ := h.look hv
    obtain ⟨y, hy, hylive, -⟩ := h.look hctx
    obtain ⟨husable, hretain, hrelease, hfallback⟩ := h.fine _ (List.mem_of_getElem? hb)
    split
    · exact h.keeps _
    split
    · exact h.keeps _
    have heffect := wrouterAddRoute_effect husable (some pattern) ⟨0, k + 1⟩ p.world
    rw [heapAddRoute_erase] at heffect
    dsimp only at heffect ⊢
    generalize heapAddRoute b (some pattern) ⟨0, k + 1⟩ p.world = r at heffect ⊢
    have hcalls := heffect.callbacks
    rw [hretain] at hcalls
    have hlive : ∀ j ∈ positions (gained ⟨0, k + 1⟩ r.1), refsAt p.cells j ≠ 0 := by
      intro j hj
      have hjk : j = k := by
        unfold gained at hj
        split at hj
        · exact List.mem_singleton.mp hj
        · simp [positions] at hj
      rwa [hjk, refsAt_eq hy]
    obtain ⟨cells, hlisten, hsound, hitems⟩ := h.listen_retain hcalls hlive
    rw [hlisten]
    have hlook : ({ p with cells := cells, world := r.2.2 } : Python).look v =
        some (i, .builder b owner) := by
      rw [← hv, look_items, look_items, Python.items, Python.items, hitems]
    obtain ⟨x, hx, hxlive, hxitem, -⟩ := hsound.look hlook
    have hset : (({ p with cells := cells, world := r.2.2 } : Python).setItem i
        (.builder r.2.1 owner)).Sound generous [] := by
      refine hsound.setItem hx hxlive (by rw [hxitem]; rfl) rfl ?_ ?_ (by simp)
      · rw [hxitem, PyItem.edges, PyItem.edges, ← positions_append, Builder.drops, Builder.drops,
          heffect.fallback, ← List.append_assoc]
        exact (heffect.held.append_right _).filterMap _
      · exact ⟨heffect.usable, heffect.retain.trans hretain, heffect.release.trans hrelease,
          (congrArg Route.ctx heffect.fallback).trans hfallback⟩
    dsimp only [Except.map]
    split
    · exact hset.keeps _
    split
    · exact hset.keeps _
    · exact hset.keeps _
  · exact h.keeps _
  · exact h.keeps _

/-- A compiled router: an object of its own, or left behind. -/
theorem pyRouterFromRouter_sound {router : Router}
    (h : p.Sound generous ((PyItem.router router).edges ++ [])) :
    (pyRouterFromRouter router p).2.Sound generous [] := by
  unfold pyRouterFromRouter
  dsimp only
  rcases hfirst : p.alloc with ⟨_ | _, p₁⟩ <;> obtain ⟨h₁, -, -, -, -, hgen⟩ := h.alloc hfirst
  · exact h₁.leave fun hg => by simp at hgen; exact hgen hg
  dsimp only
  rcases hsecond : p₁.alloc with ⟨_ | _, p₂⟩ <;> obtain ⟨h₂, -, -, -, -, hgen'⟩ := h₁.alloc hsecond
  · exact h₂.leave fun hg => by simp at hgen'; exact hgen' hg
  · exact h₂.push trivial (by simp) (by simp)

theorem pyCompiled_error {r : Option Router × WrouterError} (hfail : r.2 ≠ .ok)
    {wrong : PyFault → Prop} (h : p.Sound generous []) : Keeps generous wrong (pyCompiled r p) := by
  unfold pyCompiled
  rw [if_pos hfail]
  split <;> exact h.keeps _

theorem pyCompiled_ok {router : Router} {wrong : PyFault → Prop}
    (h : p.Sound generous ((PyItem.router router).edges ++ [])) :
    Keeps generous wrong (pyCompiled (some router, .ok) p) :=
  (pyRouterFromRouter_sound h).keeps _

/-- Compiling goes wrong only where the library frees a block again. -/
theorem pyBuilderCompile_keeps (L : Libc) (thread v : Nat) (h : p.Sound generous []) :
    Keeps generous (fun e => e = .doubleFree ∧ ∃ i b owner,
        p.look v = some (i, .builder b owner) ∧ FreesAgain b.erase p.world.answers)
      (pyBuilderCompile L thread v p) := by
  unfold pyBuilderCompile
  split
  · rename_i i b owner hv
    obtain ⟨x, hx, hxlive, hxitem, hb⟩ := h.look hv
    obtain ⟨husable, hretain, hrelease, hfallback⟩ := h.fine _ (List.mem_of_getElem? hb)
    split
    · exact h.keeps _
    dsimp only
    split
    · rename_i htwice
      exact Or.inl ⟨_, rfl, rfl, i, b, owner, hv,
        (wrouterCompile_freesTwice L b.erase p.world).mp htwice⟩
    have hcompile := wrouterCompile_calls L husable (hretain.trans hrelease.symm) p.world
    rw [hrelease, hfallback] at hcompile
    dsimp only at hcompile
    generalize wrouterCompile L (some b.erase) p.world = r at hcompile ⊢
    obtain ⟨-, hfail, hcalls⟩ | ⟨router, hsome, hok, hcounted, hholders, hcalls⟩ := hcompile
    · have hlisten : p.listen r.2.2 = .ok { p with world := r.2.2 } := by
        obtain hcalls | hcalls := hcalls
        · exact listen_none [] (hcalls.trans (List.append_nil _).symm) (by simp)
        · exact listen_none _ hcalls (by simp [retained, released])
      rw [hlisten]
      exact pyCompiled_error hfail (h.world _)
    · have hlive : ∀ k ∈ positions b.erase.holders, refsAt p.cells k ≠ 0 := by
        intro k hk
        have hedge : k ∈ x.item.edges := by
          rw [hxitem]
          exact ((drops_perm b.erase).filterMap _).mem_iff.mpr hk
        exact h.balanced.live_of_edge hx hxlive hedge
      obtain ⟨cells, hlisten, hsound, -⟩ := h.listen_retain hcalls hlive
      have hedges : (PyItem.router router).edges = positions b.erase.holders := by
        rw [PyItem.edges, hcounted, hholders]
        rfl
      rw [hlisten, hsome, hok]
      rw [← hedges] at hsound
      exact pyCompiled_ok hsound
  · exact h.keeps _
  · exact h.keeps _

theorem alloc_second {p p₁ p₂ : Python} {cells : List (Cell PyItem)} (hfirst : p.alloc = (true, p₁))
    (hsecond : ({ p₁ with cells := cells } : Python).alloc = (false, p₂)) :
    p.grants[1]? = some false := by
  obtain ⟨_, _, _, grants, _⟩ := p
  rcases grants with _ | ⟨granted, rest⟩
  · obtain ⟨-, rfl⟩ := Prod.mk.inj hfirst
    simp [Python.alloc] at hsecond
  · obtain ⟨-, rfl⟩ := Prod.mk.inj hfirst
    rcases rest with _ | ⟨granted', rest⟩
    · simp [Python.alloc] at hsecond
    · obtain ⟨rfl, -⟩ := Prod.mk.inj hsecond
      rfl

/-- A refusal after the object was made is what goes wrong in a new dispatcher. -/
theorem pyDispatcherNew_keeps (thread v : Nat) (h : p.Sound generous []) :
    Keeps generous (fun e => e = .dangling ∧ ∃ i router, p.look v = some (i, .router router) ∧
        (p.grants[1]? = some false ∨ none ∈ p.world.answers.take 2))
      (pyDispatcherNew thread v p) := by
  unfold pyDispatcherNew
  split
  · rename_i i router hv
    obtain ⟨x, hx, hxlive, -, hrouter⟩ := h.look hv
    rcases hfirst : p.alloc with ⟨_ | _, p₁⟩ <;>
      obtain ⟨h₁, hcells, -, -, hworld, -⟩ := h.alloc hfirst
    · exact h₁.keeps _
    have hlive : refsAt p₁.cells i ≠ 0 := by rwa [hcells, refsAt_eq hx]
    obtain ⟨cells, hincref, h₂, hitems⟩ := h₁.incref hlive
    simp only [hincref, bind, Except.bind]
    generalize hp₂ : ({ p₁ with cells := cells } : Python) = p₂ at h₂ ⊢
    rcases hsecond : p₂.alloc with ⟨_ | _, p₃⟩ <;>
      obtain ⟨h₃, hcells₃, -, -, hworld₃, -⟩ := h₂.alloc hsecond
    · subst hp₂
      exact Or.inl ⟨_, rfl, rfl, i, router, hv, Or.inl (alloc_second hfirst hsecond)⟩
    dsimp only
    rcases hcreate : heapDispatcherCreate router p₃.world with ⟨_ | d, w⟩
    · rw [hworld₃, ← hp₂] at hcreate
      have hrefused := heapDispatcherCreate_none hcreate
      rw [hworld] at hrefused
      exact Or.inl ⟨_, rfl, rfl, i, router, hv, Or.inr hrefused⟩
    have hfine : (PyItem.dispatcher d thread i).Fine := trivial
    refine ((h₃.world w).push hfine ?_ (by simp)).keeps _
    intro d' owner k heq
    obtain ⟨rfl, -, rfl⟩ := by simpa using heq
    have hsame : p₃.items = p.items := by
      rw [Python.items, hcells₃, ← hp₂, hitems, hcells]
      rfl
    rw [(heapDispatcherCreate_fits hcreate).1]
    change p₃.items[i]? = _
    rw [hsame]
    exact hrouter
  · exact h.keeps _
  · exact h.keeps _

theorem pyParams_keeps {hand : List Nat} (params : List Param) (dict : List (Bytes × Bytes))
    (raised : Bool) (h : p.Sound generous hand) :
    (pyParams params dict raised p).2.Sound generous hand ∧
      (pyParams params dict raised p).2.cells = p.cells := by
  induction params generalizing dict raised p with
  | nil => exact ⟨h, rfl⟩
  | cons param params ih =>
    obtain ⟨h₁, hcells₁, -⟩ := h.alloc rfl
    obtain ⟨h₂, hcells₂, -⟩ := h₁.alloc rfl
    rw [pyParams]
    split
    swap
    · exact ⟨h₂, hcells₂.trans hcells₁⟩
    rcases hstore : p.alloc.2.alloc.2.alloc with ⟨stored, p₃⟩
    obtain ⟨h₃, hcells₃, -⟩ := h₂.alloc hstore
    have hcells := hcells₃.trans (hcells₂.trans hcells₁)
    cases stored with
    | false =>
      obtain ⟨hrest, hsame⟩ := ih dict true h₃
      exact ⟨hrest, hsame.trans hcells⟩
    | true =>
      obtain ⟨hrest, hsame⟩ := ih (dictSet dict param.nameText param.valueText) raised h₃
      exact ⟨hrest, hsame.trans hcells⟩

/-- A dictionary with a reference that is lost. -/
theorem Sound.dict {hand hand' vars : List Nat} (h : p.Sound generous hand) {n : Nat}
    {dict : List (Bytes × Bytes)} (hbalanced : Balanced PyItem.edges
      (hand' ++ (vars ++ (p.lost ++ [p.cells.length]))) (p.cells ++ [⟨n, .dict dict⟩])) :
    ({ p with
      cells := p.cells ++ [⟨n, .dict dict⟩], vars := vars, lost := p.lost ++ [p.cells.length] } :
        Python).Sound generous hand' := by
  refine h.append hbalanced trivial (by simp) (fun k hk => List.mem_append_left _ hk)
    (fun _ _ => List.mem_append_right _ List.mem_cons_self) fun k hk => ?_
  rcases List.mem_append.mp hk with hk | hk
  · exact Or.inl hk
  · exact Or.inr ⟨List.mem_singleton.mp hk, dict, rfl⟩

/-- A dictionary that nobody gets stays behind. -/
theorem Sound.leaveDict (h : p.Sound generous []) (dict : List (Bytes × Bytes)) :
    ({ p with cells := p.cells ++ [⟨1, .dict dict⟩], lost := p.lost ++ [p.cells.length] } :
      Python).Sound generous [] := by
  refine h.dict ((h.balanced.push 0).perm ?_)
  exact List.perm_iff_count.mpr fun k => by simp [List.count_cons]; omega

theorem pyPair_keeps {ctx : Nat} (dict : List (Bytes × Bytes)) (raised : Bool)
    (h : p.Sound generous []) :
    Keeps generous (fun e => e = .deadObject ∧ refsAt p.cells ctx = 0)
      (pyPair ctx dict raised p) := by
  rcases halloc : p.alloc with ⟨_ | _, p₁⟩ <;> obtain ⟨h₁, hcells, -⟩ := h.alloc halloc <;>
    simp only [pyPair, halloc, ← hcells, bind, Except.bind]
  · exact (h₁.leaveDict dict).keeps _
  by_cases hlive : refsAt p₁.cells ctx = 0
  · have hshare : share PyFault.deadObject p₁.cells ctx = .error .deadObject := by
      rw [share]
      split
      · rfl
      · rename_i x hx
        exact if_pos ((refsAt_eq hx).symm.trans hlive)
    rw [Python.incref, hshare]
    exact Or.inl ⟨_, rfl, rfl, hlive⟩
  obtain ⟨cells, hincref, h₂, hitems⟩ := h₁.incref hlive
  have hlength : cells.length = p₁.cells.length := by
    have hmaps := congrArg List.length hitems
    rwa [List.length_map, List.length_map] at hmaps
  rw [hincref]
  cases raised with
  | true => exact (h₁.leaveDict dict).keeps _
  | false =>
    dsimp only
    rw [← hlength]
    refine (h₂.dict ((h₂.balanced.push 1).perm ?_)).keeps _
    exact List.perm_iff_count.mpr fun k => by simp [List.count_cons]; omega

theorem pyAnswer_keeps {ctx : Nat} (params : List Param) (h : p.Sound generous []) :
    Keeps generous (fun e => e = .deadObject ∧ refsAt p.cells ctx = 0) (pyAnswer ctx params p) := by
  unfold pyAnswer
  rcases halloc : p.alloc with ⟨_ | _, p₁⟩ <;> obtain ⟨h₁, hcells, -⟩ := h.alloc halloc
  · exact h₁.keeps _
  obtain ⟨h₂, hcells'⟩ := pyParams_keeps params [] false h₁
  dsimp only
  rcases hparams : pyParams params [] false p₁ with ⟨_ | ⟨dict, raised⟩, p₂⟩ <;>
    rw [hparams] at h₂ hcells'
  · exact h₂.keeps _
  · rw [← hcells, ← hcells']
    exact pyPair_keeps dict raised h₂

theorem refsAt_setItem {i : Nat} {x : Cell PyItem} (hx : p.cells[i]? = some x) (item : PyItem)
    (k : Nat) : refsAt (p.setItem i item).cells k = refsAt p.cells k := by
  rw [setItem_eq hx, refsAt_set hx]
  split
  · rename_i hik
    rw [← hik, refsAt_eq hx]
  · rfl

/-- A router that is there and counts its contexts answers with one that is there. -/
theorem Sound.answer_live (h : p.Sound generous []) {k : Nat} {d d' : Dispatcher}
    (hrouter : p.items[k]? = some (.router d.router)) (hcounted : d.router.release = true)
    (hlive : refsAt p.cells k ≠ 0) {L : Libc} {path : Bytes} {ctx : Nat}
    (hresolve : wrouterResolve L d path = some (ctx, d')) :
    refsAt p.cells (ctx.ppred.getD 0) ≠ 0 := by
  cases ctx with
  | zero => exact h.balanced.live_of_mem (List.mem_append_right p.vars h.none_.2)
  | succ i =>
    obtain ⟨y, hy, hylive⟩ := exists_of_refsAt hlive
    have hyitem : y.item = .router d.router := by
      rw [items_getElem?, hy] at hrouter
      exact Option.some.inj hrouter
    refine h.balanced.live_of_edge hy hylive ?_
    rw [hyitem, PyItem.edges, hcounted]
    exact List.mem_filterMap.mpr ⟨i + 1, wrouterNresolve_holders hresolve, rfl⟩

/-- The router of the call does not count its contexts. -/
def borrows (p : Python) : PyCall → Bool
  | .resolve v _ =>
    match p.look v with
    | some (_, .dispatcher d _ _) => !d.data.router.release
    | _ => false
  | _ => false

/-- A request goes wrong where it leaves its buffer or meets a context that has ended. -/
theorem pyDispatcherResolve_keeps (L : Libc) (thread v : Nat) (path : Bytes)
    (h : p.Sound generous []) :
    Keeps generous (fun e => (e = .undefined ∧ ∃ i d owner k,
        p.look v = some (i, .dispatcher d owner k) ∧
          d.data.overruns L (path.take (strlen path)) = true) ∨
      e = .deadObject ∧ p.borrows (.resolve v path) = true)
      (pyDispatcherResolve L thread v path p) := by
  unfold pyDispatcherResolve
  split
  · rename_i i d owner k hv
    obtain ⟨x, hx, hxlive, hxitem, hd⟩ := h.look hv
    have hlink := h.linked d owner k (List.mem_of_getElem? hd)
    have hkedge : k ∈ x.item.edges := by rw [hxitem]; exact List.mem_cons_self
    have hklive := h.balanced.live_of_edge hx hxlive hkedge
    split
    · exact h.keeps _
    split
    · exact h.keeps _
    -- the router is there, so the test for it is decided already
    rcases hresolve : wrouterResolve L d.data path with _ | ⟨ctx, data⟩
    · have hover := request_none.mp (Option.map_eq_none_iff.mp hresolve)
      exact Or.inl ⟨_, rfl, Or.inl ⟨rfl, i, d, owner, k, hv, hover⟩⟩
    have hset : (p.setItem i (.dispatcher ⟨d.block, data⟩ owner k)).Sound generous [] := by
      have hnone : p.Sound generous ([] ++ []) := h
      refine hnone.setItem hx hxlive (by rw [hxitem]; rfl) rfl ?_ trivial ?_
      · rw [hxitem]
        exact .refl _
      · intro d' owner' k' heq
        obtain ⟨rfl, -, rfl⟩ := by simpa using heq
        rw [hlink, ← wrouterResolve_router hresolve]
    dsimp only
    refine (pyAnswer_keeps data.params.list hset).imp fun e ⟨hdead, hctx⟩ => Or.inr ⟨hdead, ?_⟩
    rw [refsAt_setItem hx] at hctx
    rw [borrows, hv]
    cases hcounted : d.data.router.release with
    | false => simp [hcounted]
    | true => exact absurd hctx (h.answer_live hlink hcounted hklive hresolve)
  · exact h.keeps _
  · exact h.keeps _

/-- The routes of an uncounted builder come without callbacks. -/
theorem pyBuildRoutes_quiet (routes : List (Option (Bytes × Nat))) {b : HeapBuilder} {w : World}
    (husable : b.erase.Usable) (hretain : b.erase.retain = false)
    (hrelease : b.erase.release = false) :
    let r := pyBuildRoutes routes b w
    r.2.1.erase.Usable ∧ r.2.1.erase.retain = false ∧ r.2.1.erase.release = false ∧
      r.2.2.callbacks = w.callbacks := by
  induction routes generalizing b w with
  | nil => exact ⟨husable, hretain, hrelease, rfl⟩
  | cons route rest ih =>
    match route with
    | none => exact ⟨husable, hretain, hrelease, rfl⟩
    | some (pattern, k) =>
      have heffect := wrouterAddRoute_effect husable (some pattern) ⟨0, k + 1⟩ w
      rw [heapAddRoute_erase] at heffect
      have hretain' := heffect.retain.trans hretain
      have hrelease' := heffect.release.trans hrelease
      have hcalls := heffect.callbacks
      rw [hretain] at hcalls
      have hcalls := hcalls.trans (List.append_nil _)
      rw [pyBuildRoutes]
      split
      · exact ⟨husable, hretain, hrelease, rfl⟩
      dsimp only
      split
      · exact ⟨heffect.usable, hretain', hrelease', hcalls⟩
      split
      · exact ⟨heffect.usable, hretain', hrelease', hcalls⟩
      · obtain ⟨hu, hre, hrel, hquiet⟩ := ih heffect.usable hretain' hrelease'
        exact ⟨hu, hre, hrel, hquiet.trans hcalls⟩

/-- `build_router` goes wrong only where the library frees a block again: its builder has no
callbacks, and follows nothing when it is freed. -/
theorem pyBuildRouter_keeps (L : Libc) (routes : List (Option (Bytes × Nat)))
    (h : p.Sound generous []) :
    Keeps generous (fun e => e = .doubleFree ∧ ∃ named b w, p.named routes = some named ∧
        heapBuilderCreate uncounted p.world = some (some b, w) ∧
          FreesAgain (pyBuildRoutes named b w).2.1.erase (pyBuildRoutes named b w).2.2.answers)
      (pyBuildRouter L routes p) := by
  have hlisten {w : World} (hw : w.callbacks = p.world.callbacks) :
      p.listen w = .ok { p with world := w } :=
    listen_none [] (hw.trans (List.append_nil _).symm) (by simp)
  unfold pyBuildRouter
  split
  · exact h.keeps _
  rename_i routes' hnamed
  rcases hcreate : heapBuilderCreate uncounted p.world with _ | ⟨_ | b, w⟩
  · exact absurd (heapBuilderCreate_eq_none.mp hcreate).1 (by simp [uncounted])
  · dsimp only
    rw [hlisten (heapBuilderCreate_none rfl hcreate)]
    exact (h.world w).keeps _
  have hbuilder := heapBuilderCreate_erase hcreate
  obtain ⟨hfresh, hcalls, -⟩ := wrouterBuilderCreate_fresh hbuilder
  have hcalls := hcalls.trans (List.append_nil _)
  obtain ⟨husable, hretain, hrelease, hquiet⟩ := pyBuildRoutes_quiet routes' (w := w)
    (fun _ => ⟨[], (wrouterBuilderCreate_holds hbuilder).1⟩) (by rw [hfresh]; rfl)
    (by rw [hfresh]; rfl)
  dsimp only at husable hretain hrelease hquiet ⊢
  rcases hroutes : pyBuildRoutes routes' b w with ⟨_ | reply, b', w'⟩ <;>
    rw [hroutes] at husable hretain hrelease hquiet <;>
    dsimp only at husable hretain hrelease hquiet ⊢
  · split
    · rename_i htwice
      refine Or.inl ⟨_, rfl, rfl, routes', b, w, hnamed, rfl, ?_⟩
      rw [hroutes]
      exact (wrouterCompile_freesTwice L b'.erase w').mp htwice
    have hcompile := wrouterCompile_calls L husable (hretain.trans hrelease.symm) w'
    rw [hrelease] at hcompile
    dsimp only at hcompile
    generalize wrouterCompile L (some b'.erase) w' = r at hcompile ⊢
    have hsame : r.2.2.callbacks = w'.callbacks := by
      obtain ⟨-, -, hcalls | hcalls⟩ | ⟨router, -, -, -, -, hcalls⟩ := hcompile
      · exact hcalls
      · exact hcalls.trans (List.append_nil _)
      · exact hcalls.trans (List.append_nil _)
    obtain ⟨v, hfree, hfreed⟩ := heapBuilderFree_silent hrelease r.2.2
    rw [hfree]
    dsimp only
    rw [hlisten (hfreed.trans (hsame.trans (hquiet.trans hcalls)))]
    obtain ⟨-, hfail, -⟩ | ⟨router, hsome, hok, hcounted, -⟩ := hcompile
    · exact pyCompiled_error hfail (h.world v)
    · have hedges : (PyItem.router router).edges = [] := by
        rw [PyItem.edges, hcounted]
        rfl
      have hsound : ({ p with world := v } : Python).Sound generous
          ((PyItem.router router).edges ++ []) := by
        rw [hedges]
        exact h.world v
      rw [hsome, hok]
      exact pyCompiled_ok hsound
  · obtain ⟨v, hfree, hfreed⟩ := heapBuilderFree_silent hrelease w'
    rw [hfree]
    dsimp only
    rw [hlisten (hfreed.trans (hquiet.trans hcalls))]
    exact (h.world v).keeps _

/-- References change hands between the variables and the outside. -/
theorem Sound.exchange {hand : List Nat} (h : p.Sound generous hand) (hand' vars : List Nat)
    (hperm : (hand ++ p.vars).Perm (hand' ++ vars)) :
    ({ p with vars := vars } : Python).Sound generous hand' := by
  refine ⟨h.balanced.perm ?_, h.fine, h.linked, h.none_, h.dicts, h.grants, h.left⟩
  rw [← List.append_assoc, ← List.append_assoc]
  exact hperm.append_right _

/-- What makes a call go wrong. -/
inductive Wrong (L : Libc) (p : Python) : PyCall → PyFault → Prop where
  -- the reference leads to a builder in which an edge has no end
  | lostEdge {v i j : Nat} {x : Cell PyItem} {b : HeapBuilder} {owner : Nat} :
      p.vars[v]? = some i → Reached PyItem.edges [i] p.cells j → p.cells[j]? = some x →
      x.item = .builder b owner → b.erase.root.whole = false → Wrong L p (.forget v) .nullPointer
  | noRoot {arg : Option (Option ParamSyntax)} : rootRefused p.world.answers →
      Wrong L p (.builder arg) .nullPointer
  | compiled {v i : Nat} {b : HeapBuilder} {owner : Nat} : p.look v = some (i, .builder b owner) →
      FreesAgain b.erase p.world.answers → Wrong L p (.compile v) .doubleFree
  | built {routes named : List (Option (Bytes × Nat))} {b : HeapBuilder} {w : World} :
      p.named routes = some named → heapBuilderCreate uncounted p.world = some (some b, w) →
      FreesAgain (pyBuildRoutes named b w).2.1.erase (pyBuildRoutes named b w).2.2.answers →
      Wrong L p (.buildRouter routes) .doubleFree
  -- the memory for the inner object or for the library's dispatcher
  | refused {v i : Nat} {router : Router} : p.look v = some (i, .router router) →
      p.grants[1]? = some false ∨ none ∈ p.world.answers.take 2 →
      Wrong L p (.dispatcher v) .dangling
  | overrun {v i : Nat} {path : Bytes} {d : HeapDispatcher} {owner router : Nat} :
      p.look v = some (i, .dispatcher d owner router) →
      d.data.overruns L (path.take (strlen path)) = true → Wrong L p (.resolve v path) .undefined
  | borrowed {v : Nat} {path : Bytes} : p.borrows (.resolve v path) = true →
      Wrong L p (.resolve v path) .deadObject

/-- The step lemma: a call keeps the books, or goes wrong for one of the reasons. -/
theorem call_keeps (L : Libc) (thread : Nat) (call : PyCall) (h : p.Sound generous []) :
    Keeps generous (Wrong L p call) (p.call L thread call) := by
  cases call with
  | object =>
    have hnone : p.Sound generous (PyItem.object.edges ++ []) := h
    exact (hnone.push trivial (by simp) (by simp)).keeps _
  | copy v =>
    rw [Python.call]
    cases hi : p.vars[v]? with
    | none => exact h.keeps _
    | some i =>
      have hlive := h.balanced.live_of_mem (List.mem_append_left p.lost (List.mem_of_getElem? hi))
      obtain ⟨cells, hincref, hsound, -⟩ := h.incref hlive
      dsimp only
      rw [hincref]
      exact (hsound.exchange [] (p.vars ++ [i]) (List.perm_append_singleton i p.vars).symm).keeps _
  | forget v =>
    rw [Python.call]
    cases hi : p.vars[v]? with
    | none => exact h.keeps _
    | some i =>
      obtain ⟨hlt, rfl⟩ := List.getElem?_eq_some_iff.mp hi
      have hsound := h.exchange [p.vars[v]] (p.vars.eraseIdx v)
        (List.getElem_cons_eraseIdx_perm hlt).symm
      obtain ⟨e, hfail, j, x, hreached, hx, rfl, b, owner, hitem, hlost⟩ | ⟨p', hdecref, hsound'⟩ :=
        hsound.decref (.refl _)
      · exact Or.inl ⟨_, by dsimp only; rw [hfail]; rfl, .lostEdge hi hreached hx hitem hlost⟩
      · dsimp only
        rw [hdecref]
        exact hsound'.keeps _
  | builder arg =>
    exact (pyBuilderNew_keeps thread arg h).imp fun e ⟨he, hroot⟩ => he ▸ .noRoot hroot
  | add v pattern ctx => exact (pyBuilderAdd_keeps thread v pattern ctx h).imp fun e he => he.elim
  | compile v =>
    refine (pyBuilderCompile_keeps L thread v h).imp ?_
    rintro e ⟨rfl, i, b, owner, hv, htwice⟩
    exact .compiled hv htwice
  | dispatcher v =>
    refine (pyDispatcherNew_keeps thread v h).imp ?_
    rintro e ⟨rfl, i, router, hv, hrefused⟩
    exact .refused hv hrefused
  | resolve v path =>
    refine (pyDispatcherResolve_keeps L thread v path h).imp ?_
    rintro e (⟨rfl, i, d, owner, k, hv, hover⟩ | ⟨rfl, hborrows⟩)
    · exact .overrun hv hover
    · exact .borrowed hborrows
  | buildRouter routes =>
    refine (pyBuildRouter_keeps L routes h).imp ?_
    rintro e ⟨rfl, named, b, w, hnamed, hcreate, htwice⟩
    exact .built hnamed hcreate htwice

/-- At the start there is `None`. -/
theorem start_sound {grants : List Bool} (hgrants : generous → ∀ granted ∈ grants, granted = true)
    (w : World) : (Python.start grants w).Sound generous [] := by
  refine ⟨fun i => ?_, ?_, ?_, ⟨rfl, List.mem_cons_self⟩, ?_, hgrants, fun _ k hk => ?_⟩
  · cases i <;> simp [Python.start, refsAt, held, Cell.holds, PyItem.edges]
  · intro item hitem
    obtain rfl := List.mem_singleton.mp hitem
    exact trivial
  · intro d owner k hk
    simp [Python.start, Python.items] at hk
  · intro k dict hk
    cases k <;> simp [Python.start, Python.items] at hk
  · exact Or.inl (List.mem_singleton.mp hk)

/-- A run up to its first wrong step. -/
theorem run_sound (L : Libc) (calls : List (Nat × PyCall)) (h : p.Sound generous []) :
    (∃ replies p', p.run L calls = .ok (replies, p') ∧ p'.Sound generous []) ∨
      ∃ before thread call after replies p' e, calls = before ++ (thread, call) :: after ∧
        p.run L before = .ok (replies, p') ∧ p'.Sound generous [] ∧
        p'.call L thread call = .error e ∧ p.run L calls = .error e ∧ Wrong L p' call e := by
  induction calls generalizing p with
  | nil => exact Or.inl ⟨[], p, rfl, h⟩
  | cons step rest ih =>
    obtain ⟨thread, call⟩ := step
    have hstop {e : PyFault} (hcall : p.call L thread call = .error e) :
        p.run L ((thread, call) :: rest) = .error e := by
      simp only [Python.run, hcall, bind, Except.bind]
    rcases call_keeps L thread call h with ⟨e, hcall, hwrong⟩ | ⟨reply, p₁, hcall, h₁⟩
    · exact Or.inr ⟨[], thread, call, rest, [], p, e, rfl, rfl, h, hcall, hstop hcall, hwrong⟩
    · rcases ih h₁ with ⟨replies, p', hrun, hsound⟩ |
        ⟨before, thread', call', after, replies, p', e, rfl, hrun, hsound, hbad, hfail, hwhy⟩
      · refine Or.inl ⟨reply :: replies, p', ?_, hsound⟩
        simp only [Python.run, hcall, hrun, bind, Except.bind]
        rfl
      · refine Or.inr ⟨(thread, call) :: before, thread', call', after, reply :: replies, p', e,
          rfl, ?_, hsound, hbad, ?_, hwhy⟩
        · simp only [Python.run, hcall, hrun, bind, Except.bind]
          rfl
        · simp only [Python.run, hcall, hfail, bind, Except.bind]

end Python

/-- `build_router` does not count: here the context goes before the router does. -/
example : ((Python.start [] .empty).run .reference [(0, .object),
    (0, .buildRouter [some (ascii "/users", 0)]), (0, .dispatcher 1), (0, .forget 0),
    (0, .resolve 1 (ascii "/users"))]).map Prod.fst = .error .deadObject := by
  decide +kernel

/-! ## Lifetimes -/

def PyItem.rank : PyItem → Nat
  | .dispatcher _ _ _ => 2
  | .builder _ _ | .router _ => 1
  | .none | .object | .dict _ => 0

/-- No context is a builder, a router or a dispatcher. -/
def Python.plainContexts (p : Python) : Bool := p.cells.all fun x =>
  x.refs = 0 || x.item.rank ≠ 1 || x.item.edges.all fun k => (p.items[k]?).any fun y => y.rank = 0

theorem rank_le (item : PyItem) : item.rank ≤ 2 := by cases item <;> simp [PyItem.rank]

theorem edges_of_rank {item : PyItem} (h : item.rank = 0) : item.edges = [] := by
  cases item <;> first | rfl | simp [PyItem.rank] at h

/-- References go down from dispatchers to routers, and from there or from builders to contexts. -/
theorem Python.Sound.rank {generous : Prop} {hand : List Nat} {p : Python}
    (h : p.Sound generous hand) (hplain : p.plainContexts = true) {i k : Nat} {x y : Cell PyItem}
    (hx : p.cells[i]? = some x) (hlive : x.refs ≠ 0) (hy : p.cells[k]? = some y)
    (hk : k ∈ x.item.edges) : y.item.rank < x.item.rank := by
  have hyitem : p.items[k]? = some y.item := by
    rw [items_getElem?, hy]
    rfl
  have hmem := List.mem_of_getElem? hx
  have hcontexts := List.all_eq_true.mp hplain x hmem
  have hone (hrank : x.item.rank = 1) : y.item.rank = 0 := by
    simp only [hlive, hrank, decide_false, Bool.false_or, ne_eq, not_true_eq_false,
      List.all_eq_true] at hcontexts
    simpa [hyitem] using hcontexts k hk
  cases hitem : x.item with
  | dispatcher d owner j =>
    rw [hitem] at hk
    obtain rfl := List.mem_singleton.mp hk
    have hlink := h.linked d owner k (List.mem_map.mpr ⟨x, hmem, hitem⟩)
    rw [Option.some.inj (hyitem.symm.trans hlink)]
    exact Nat.lt_add_one 1
  | builder b owner =>
    rw [hone (by rw [hitem]; rfl)]
    exact Nat.zero_lt_one
  | router router =>
    rw [hone (by rw [hitem]; rfl)]
    exact Nat.zero_lt_one
  | _ =>
    rw [hitem] at hk
    simp [PyItem.edges] at hk

/-- Where the runtime refuses nothing and contexts are plain, an object lives exactly as long as the
program can reach it; only `None` and the dictionaries of the answers stay for ever. -/
theorem python_lifetimes (L : Libc) (calls : List (Nat × PyCall)) {grants : List Bool}
    (hgrants : ∀ granted ∈ grants, granted = true) (w : World) {replies : List PyReply} {p : Python}
    (hrun : (Python.start grants w).run L calls = .ok (replies, p))
    (hplain : p.plainContexts = true) (i : Nat) :
    refsAt p.cells i ≠ 0 ↔ Reached PyItem.edges p.vars p.cells i ∨ i = 0 ∨
      ∃ dict, p.items[i]? = some (.dict dict) := by
  have hstart : (Python.start grants w).Sound True [] := Python.start_sound (fun _ => hgrants) w
  have h : p.Sound True [] := by
    rcases Python.run_sound L calls hstart with ⟨replies', p', hrun', h⟩ |
      ⟨_, _, _, _, _, _, _, _, _, _, _, hfail, _⟩
    · rw [hrun] at hrun'
      obtain ⟨-, rfl⟩ := Prod.mk.inj (Except.ok.inj hrun')
      exact h
    · rw [hrun] at hfail
      simp at hfail
  have hbalanced : Balanced PyItem.edges (p.vars ++ p.lost) p.cells := h.balanced
  have hleaves : ∀ k ∈ p.lost, ∀ x : Cell PyItem, p.cells[k]? = some x → x.item.edges = [] := by
    intro k hk x hx
    have hitem : p.items[k]? = some x.item := by
      rw [Python.items_getElem?, hx]
      rfl
    apply edges_of_rank
    rcases h.left trivial k hk with rfl | ⟨dict, hdict⟩
    · rw [Option.some.inj (hitem.symm.trans h.none_.1)]
      rfl
    · rw [Option.some.inj (hitem.symm.trans hdict)]
      rfl
  constructor
  · intro hlive
    have hreached := hbalanced.reached rank_le
      (fun i k x y hx hxlive hy hk => h.rank hplain hx hxlive hy hk) hlive
    exact (hreached.leaves hleaves).imp_right (h.left trivial i)
  · rintro (hreached | rfl | ⟨dict, hdict⟩)
    · exact (hreached.mono fun k hk => List.mem_append_left _ hk).live hbalanced
    · exact hbalanced.live_of_mem (List.mem_append_right _ h.none_.2)
    · exact hbalanced.live_of_mem (List.mem_append_right _ (h.dicts i dict hdict))

def pythonCalls : List (Nat × PyCall) :=
  [(0, .object), (0, .builder none), (0, .add 1 (ascii "/users/:id") 0), (0, .compile 1),
    (7, .dispatcher 2), (0, .forget 2), (7, .resolve 2 (ascii "/users/42")), (0, .forget 0),
    (0, .forget 0), (0, .forget 0), (0, .forget 0), (0, .forget 0)]

/-- The router goes with its dispatcher, and the context after both; the dictionary stays. -/
theorem python_lifetimes_users : ∃ replies p,
    (Python.start [] .empty).run .reference pythonCalls = .ok (replies, p) ∧ p.vars = [] ∧
      ∀ i, refsAt p.cells i ≠ 0 ↔ Reached PyItem.edges p.vars p.cells i ∨ i = 0 ∨
        ∃ dict, p.items[i]? = some (.dict dict) := by
  have hends : ((Python.start [] .empty).run .reference pythonCalls).map
      (fun r => (r.2.vars, r.2.plainContexts)) = .ok ([], true) := by decide +kernel
  cases hrun : (Python.start [] .empty).run .reference pythonCalls with
  | error e =>
    rw [hrun] at hends
    simp [Except.map] at hends
  | ok r =>
    rw [hrun] at hends
    obtain ⟨hvars, hplain⟩ := Prod.mk.inj (Except.ok.inj hends)
    exact ⟨r.1, r.2, rfl, hvars,
      python_lifetimes .reference pythonCalls (by simp) .empty hrun hplain⟩

end Wrouter
