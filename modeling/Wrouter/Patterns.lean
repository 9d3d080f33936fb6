import Wrouter.Grammar

/-!
# Patterns and their segments

How the pieces of an accepted pattern lie in its segments. A closed parameter is the only
piece that another may follow without a '/' between them.
-/
namespace Wrouter

open CLib

variable {σ : ParamSyntax}

def groupText (σ : ParamSyntax) (as : List Piece) : Bytes := as.flatMap (Piece.text σ)

/-- Pieces of one segment: every one but the last is closed by its delimiter. -/
def Glued (σ : ParamSyntax) (as : List Piece) : Prop :=
  (∀ a ∈ as.dropLast, a.glues) ∧ ∀ a ∈ as, a.Ok σ

theorem Piece.Ok.slash_free {a : Piece} (ha : a.Ok σ) : slash ∉ a.text σ := by
  cases a with
  | literal s => exact ha.2.2.1
  | param name closed =>
    have hname : slash ∉ name := by
      intro hmem
      exact absurd (validName_bytes ha.1 slash hmem) (by decide)
    have hcloser : slash ∉ closer σ closed := by
      cases closed <;> cases σ <;> decide
    have hopen : slash ≠ opening σ := opening_ne.2.1.symm
    simp [Piece.text, hopen, hname, hcloser]
  | wildcard =>
    rw [Piece.text, List.mem_singleton]
    decide

theorem Glued.text_ne {as : List Piece} (h : Glued σ as) (hne : as ≠ []) :
    ∃ b t, groupText σ as = b :: t ∧ b ≠ slash := by
  obtain ⟨a, as, rfl⟩ := List.exists_cons_of_ne_nil hne
  obtain ⟨b, t, htext, -, hslash⟩ := (h.2 a List.mem_cons_self).head
  exact ⟨b, t ++ groupText σ as, by simp [groupText, htext], hslash⟩

theorem Glued.slash_free {as : List Piece} (h : Glued σ as) : slash ∉ groupText σ as := by
  rw [groupText, List.mem_flatMap]
  rintro ⟨a, ha, hmem⟩
  exact (h.2 a ha).slash_free hmem

theorem Glued.cons {a : Piece} {as : List Piece} (ha : a.Ok σ) (hg : as ≠ [] → a.glues)
    (h : Glued σ as) : Glued σ (a :: as) := by
  refine ⟨?_, List.forall_mem_cons.mpr ⟨ha, h.2⟩⟩
  cases as with
  | nil => simp
  | cons b as => exact List.forall_mem_cons.mpr ⟨hg (by simp), h.1⟩

/-- The pieces fall into segments; the first few may lie before any '/'. -/
theorem Spells.groups {c rest : Bytes} {ps : List Piece} (h : Spells σ c ps rest)
    (hrest : rest = [] ∨ rest = [slash]) : ∃ (lead : List Piece) (gs : List (List Piece)),
      ps = lead ++ gs.flatten ∧ Glued σ lead ∧ (∀ g ∈ gs, g ≠ [] ∧ Glued σ g) ∧
      c = groupText σ lead ++ (pathOf (gs.map (groupText σ)) ++ rest) := by
  induction h with
  | nil rest => exact ⟨[], [], rfl, ⟨by simp, by simp⟩, by simp, rfl⟩
  | @piece sl a c ps rest hsl ha hc _ ih =>
    obtain ⟨lead, gs, rfl, hlead, hgs, rfl⟩ := ih hrest
    have hgroup : Glued σ (a :: lead) := by
      refine .cons ha (fun hne => ?_) hlead
      obtain ⟨b, t, htext, hb⟩ := hlead.text_ne hne
      refine hc.resolve_right (fun hslash => hb (hslash b ?_))
      rw [htext]
      rfl
    have htext : a.text σ ++ (groupText σ lead ++ (pathOf (gs.map (groupText σ)) ++ rest)) =
        groupText σ (a :: lead) ++ (pathOf (gs.map (groupText σ)) ++ rest) := by
      simp [groupText]
    rw [htext]
    rcases hsl with rfl | rfl
    · exact ⟨a :: lead, gs, rfl, hgroup, hgs, rfl⟩
    · refine ⟨[], (a :: lead) :: gs, rfl, ⟨by simp, by simp⟩,
        List.forall_mem_cons.mpr ⟨⟨by simp, hgroup⟩, hgs⟩, ?_⟩
      simp [groupText, pathOf]

/-- The pieces of an accepted pattern, segment by segment. -/
theorem Spelt.groups {p rest : Bytes} {ps : List Piece} (h : Spelt σ p ps rest) :
    ∃ gs : List (List Piece), ps = gs.flatten ∧ (∀ g ∈ gs, g ≠ [] ∧ Glued σ g) ∧
      p = pathOf (gs.map (groupText σ)) ++ rest ∧ pathSegments p = gs.map (groupText σ) := by
  obtain ⟨hhead, hspells, hrest⟩ := h
  obtain ⟨lead, gs, rfl, hlead, hgs, rfl⟩ := hspells.groups hrest
  obtain rfl : lead = [] := by
    by_contra hne
    obtain ⟨b, t, htext, hb⟩ := hlead.text_ne hne
    rw [htext] at hhead
    exact hb (by simpa using hhead)
  refine ⟨gs, rfl, hgs, rfl, pathSegments_path (fun s hs => ?_) hrest⟩
  obtain ⟨g, hg, rfl⟩ := List.mem_map.mp hs
  obtain ⟨hne, hglued⟩ := hgs g hg
  obtain ⟨b, t, htext, -⟩ := hglued.text_ne hne
  exact ⟨by simp [htext], hglued.slash_free⟩

theorem atSlash_pathOf (ss : List Bytes) {rest : Bytes} (hrest : rest = [] ∨ rest = [slash]) :
    AtSlash (pathOf ss ++ rest) := by
  cases ss with
  | nil => rcases hrest with rfl | rfl <;> simp [AtSlash, pathOf]
  | cons s ss => simp [AtSlash, pathOf]

/-- Pieces with a '/' before each are a pattern, whatever they are. -/
theorem spells_pathOf {ps : List Piece} (hps : ∀ a ∈ ps, a.Ok σ) {rest : Bytes}
    (hrest : rest = [] ∨ rest = [slash]) :
    Spells σ (pathOf (ps.map (Piece.text σ)) ++ rest) ps rest := by
  induction ps with
  | nil => exact .nil rest
  | cons a ps ih =>
    obtain ⟨ha, hps⟩ := List.forall_mem_cons.mp hps
    have htext : pathOf ((a :: ps).map (Piece.text σ)) ++ rest =
        [slash] ++ (a.text σ ++ (pathOf (ps.map (Piece.text σ)) ++ rest)) := by
      simp [pathOf]
    rw [htext]
    exact .piece (Or.inr rfl) ha (Or.inr (atSlash_pathOf _ hrest)) (ih hps)

/-- Pieces with slashes between them are spelt as they stand. -/
theorem spelt_pathOf {ps : List Piece} (hps : ∀ a ∈ ps, a.Ok σ) {rest : Bytes}
    (hrest : rest = [] ∨ rest = [slash]) (hne : pathOf (ps.map (Piece.text σ)) ++ rest ≠ []) :
    Spelt σ (pathOf (ps.map (Piece.text σ)) ++ rest) ps rest := by
  refine ⟨?_, spells_pathOf hps hrest, hrest⟩
  cases ps with
  | nil =>
    rcases hrest with rfl | rfl
    · exact absurd rfl hne
    · rfl
  | cons a ps => simp [pathOf]

/-- No two pieces in one segment. -/
theorem singles {gs : List (List Piece)} (hne : ∀ g ∈ gs, g ≠ [])
    (htwo : ∀ a b as, a :: b :: as ∉ gs) : ∃ ps : List Piece, gs = ps.map fun a => [a] := by
  induction gs with
  | nil => exact ⟨[], rfl⟩
  | cons g gs ih =>
    obtain ⟨hg, hgs⟩ := List.forall_mem_cons.mp hne
    obtain ⟨ps, rfl⟩ := ih hgs fun a b as hmem => htwo a b as (List.mem_cons_of_mem _ hmem)
    obtain ⟨a, as, rfl⟩ := List.exists_cons_of_ne_nil hg
    cases as with
    | nil => exact ⟨a :: ps, rfl⟩
    | cons b as => exact absurd List.mem_cons_self (htwo a b as)

theorem groupText_singles (ps : List Piece) :
    (ps.map fun a => [a]).map (groupText σ) = ps.map (Piece.text σ) := by
  simp [groupText]

theorem flatten_singles (ps : List Piece) : (ps.map fun a => [a]).flatten = ps := by
  induction ps with
  | nil => rfl
  | cons a ps ih => rw [List.map_cons, List.flatten_cons, ih, List.singleton_append]

/-! ## The colon syntax -/

/-- Without a closing delimiter nothing is glued. -/
theorem colon_groups {gs : List (List Piece)} (h : ∀ g ∈ gs, g ≠ [] ∧ Glued .colon g) :
    ∃ ps : List Piece, gs = ps.map fun a => [a] := by
  refine singles (fun g hg => (h g hg).1) (fun a b as hmem => ?_)
  obtain ⟨hglues, hok⟩ := (h _ hmem).2
  replace hglues := hglues a List.mem_cons_self
  replace hok := hok a List.mem_cons_self
  cases a with
  | param name closed => simpa [closing] using hok.2.2 hglues
  | _ => simp [Piece.glues] at hglues

def lastSlash (trailing : Bool) : Bytes := if trailing then [slash] else []

theorem lastSlash_cases (trailing : Bool) :
    lastSlash trailing = [] ∨ lastSlash trailing = [slash] := by
  cases trailing <;> simp [lastSlash]

theorem lastSlash_of {rest : Bytes} (h : rest = [] ∨ rest = [slash]) :
    ∃ trailing, rest = lastSlash trailing := by
  rcases h with rfl | rfl
  · exact ⟨false, rfl⟩
  · exact ⟨true, rfl⟩

/-- A pattern of one piece for each segment reads as these pieces. -/
theorem word_pathOf {segs : List Piece} (hne : segs ≠ []) (hok : ∀ a ∈ segs, a.Ok σ)
    (trailing : Bool)
    (hf : NulFree (pathOf (segs.map (Piece.text σ)) ++ lastSlash trailing)) :
    patternWord σ (pathOf (segs.map (Piece.text σ)) ++ lastSlash trailing) =
      segs.map Piece.tok ++ [if trailing then .trailing else .end_] := by
  have hnil : pathOf (segs.map (Piece.text σ)) ++ lastSlash trailing ≠ [] := by
    obtain ⟨a, as, rfl⟩ := List.exists_cons_of_ne_nil hne
    simp [pathOf]
  rw [(spelt_pathOf hok (lastSlash_cases trailing) hnil).word hf]
  cases trailing <;> simp [lastTok, lastSlash, hne]

/-- In the colon syntax exactly the root and the lists of segments are accepted, and the
tokens are the segments. -/
theorem colon_grammar {p : Bytes} (hf : NulFree p) :
    (.illegal ∉ patternWord .colon p ↔ p = [slash] ∨
      ∃ (segs : List Piece) (trailing : Bool), segs ≠ [] ∧ (∀ a ∈ segs, a.Ok .colon) ∧
        p = pathOf (segs.map (Piece.text .colon)) ++ lastSlash trailing) ∧
    (p = [slash] → patternWord .colon p = [.end_]) ∧
    ∀ (segs : List Piece) (trailing : Bool), segs ≠ [] → (∀ a ∈ segs, a.Ok .colon) →
      p = pathOf (segs.map (Piece.text .colon)) ++ lastSlash trailing →
      patternWord .colon p = segs.map Piece.tok ++ [if trailing then .trailing else .end_] := by
  refine ⟨?_, ?_, ?_⟩
  · rw [accepted_iff hf]
    constructor
    · rintro ⟨ps, rest, h⟩
      obtain ⟨gs, rfl, hgs, hp, -⟩ := h.groups
      obtain ⟨segs, rfl⟩ := colon_groups hgs
      obtain ⟨trailing, rfl⟩ := lastSlash_of h.2.2
      rw [groupText_singles] at hp
      by_cases hne : segs = []
      · subst hne
        refine Or.inl ?_
        have hhead := h.1
        rw [hp] at hhead ⊢
        cases trailing
        · simp [pathOf, lastSlash] at hhead
        · rfl
      · refine Or.inr ⟨segs, trailing, hne, fun a ha => ?_, hp⟩
        exact (hgs [a] (List.mem_map.mpr ⟨a, ha, rfl⟩)).2.2 a (List.mem_singleton_self a)
    · rintro (rfl | ⟨segs, trailing, hne, hok, rfl⟩)
      · exact ⟨[], [slash], rfl, .nil _, Or.inr rfl⟩
      · refine ⟨segs, lastSlash trailing, spelt_pathOf hok (lastSlash_cases trailing) ?_⟩
        obtain ⟨a, as, rfl⟩ := List.exists_cons_of_ne_nil hne
        simp [pathOf]
  · rintro rfl
    decide
  · rintro segs trailing hne hok rfl
    exact word_pathOf hne hok trailing hf

/-- A literal, a parameter, a wildcard and a trailing slash. -/
theorem colon_grammar_three : patternWord .colon (ascii "/a/:b/*/") =
    [.literal (ascii "a"), .param (ascii "b"), .wildcard, .trailing] := by
  have hf : NulFree (ascii "/a/:b/*/") := by
    unfold NulFree
    decide
  refine (colon_grammar hf).2.2 [.literal (ascii "a"), .param (ascii "b") false, .wildcard] true
    (by simp) ?_ (by decide)
  simp only [List.forall_mem_cons]
  exact ⟨⟨by decide, by decide, by decide, by decide +kernel, by decide⟩, ⟨by decide, by decide, by decide⟩,
    trivial, by simp⟩

/-! ## One token for each segment -/

/-- The token is the segment's, and all of it. -/
def Covers (σ : ParamSyntax) : Tok → Bytes → Prop
  | .literal s, seg => seg = s
  | .param name, seg => seg = opening σ :: name ∨
      ∃ d, closing σ = some d ∧ seg = opening σ :: (name ++ [d])
  | .wildcard, seg => seg = [star]
  | _, _ => False

/-- Bytes follow the closing delimiter of the parameter that the segment starts with. -/
def Overruns (σ : ParamSyntax) (seg : Bytes) : Prop :=
  ∃ d name rest, closing σ = some d ∧ seg = opening σ :: (name ++ d :: rest) ∧ d ∉ name ∧
    rest ≠ []

theorem piece_covers {a : Piece} (ha : a.Ok σ) : Covers σ a.tok (a.text σ) := by
  cases a with
  | literal s => rfl
  | param name closed =>
    cases closed with
    | false => exact Or.inl (by simp [Piece.text, closer])
    | true =>
      obtain ⟨d, hd⟩ := Option.isSome_iff_exists.mp (ha.2.2 rfl)
      exact Or.inr ⟨d, hd, by simp [Piece.text, closer, hd]⟩
  | wildcard => rfl

theorem not_overruns_piece {a : Piece} (ha : a.Ok σ) : ¬ Overruns σ (a.text σ) := by
  rintro ⟨d, name, rest, hd, htext, -, hne⟩
  cases a with
  | literal s => exact ha.2.1 (by rw [show s = opening σ :: (name ++ d :: rest) from htext]; rfl)
  | param n closed =>
    have hname : d ∉ n := by
      intro hmem
      have hbyte := validName_bytes ha.1 d hmem
      rw [closing_not_name hd] at hbyte
      exact absurd hbyte (by decide)
    replace htext : n ++ closer σ closed = name ++ d :: rest := (List.cons.inj htext).2
    cases closed with
    | false =>
      rw [show closer σ false = [] from rfl, List.append_nil] at htext
      exact hname (by simp [htext])
    | true =>
      have hcloser : closer σ true = [d] := by simp [closer, hd]
      have hlast := congrArg List.dropLast htext
      rw [hcloser, List.dropLast_concat, List.dropLast_append_of_ne_nil (by simp),
        List.dropLast_cons_of_ne_nil hne] at hlast
      exact hname (by simp [hlast])
  | wildcard => exact opening_ne.2.2 (List.cons.inj htext).1.symm

/-- Two pieces in one segment: the first is a closed parameter, and the second follows it. -/
theorem overruns_group {a b : Piece} {as : List Piece} (h : Glued σ (a :: b :: as)) :
    Overruns σ (groupText σ (a :: b :: as)) := by
  have hglues := h.1 a List.mem_cons_self
  obtain ⟨hok, hrest⟩ := List.forall_mem_cons.mp h.2
  cases a with
  | param name closed =>
    obtain rfl : closed = true := hglues
    obtain ⟨d, hd⟩ := Option.isSome_iff_exists.mp (hok.2.2 rfl)
    obtain ⟨x, t, htext, -, -⟩ := (hrest b List.mem_cons_self).head
    refine ⟨d, name, groupText σ (b :: as), hd, ?_, ?_, by simp [groupText, htext]⟩
    · simp [groupText, Piece.text, closer, hd]
    · intro hmem
      have hbyte := validName_bytes hok.1 d hmem
      rw [closing_not_name hd] at hbyte
      exact absurd hbyte (by decide)
  | _ => simp [Piece.glues] at hglues

theorem length_le_flatten {gs : List (List Piece)} (hne : ∀ g ∈ gs, g ≠ []) :
    gs.length ≤ gs.flatten.length := by
  induction gs with
  | nil => simp
  | cons g gs ih =>
    obtain ⟨hg, hgs⟩ := List.forall_mem_cons.mp hne
    have := ih hgs
    have := List.length_pos_iff.mpr hg
    simp only [List.length_cons, List.flatten_cons, List.length_append]
    omega

/-- As many pieces as segments leaves no segment two. -/
theorem two_lt_flatten {gs : List (List Piece)} (hne : ∀ g ∈ gs, g ≠ []) {a b : Piece}
    {as : List Piece} (hmem : a :: b :: as ∈ gs) : gs.length < gs.flatten.length := by
  obtain ⟨before, after, rfl⟩ := List.append_of_mem hmem
  have hbefore := length_le_flatten fun g hg => hne g (List.mem_append_left _ hg)
  have hafter := length_le_flatten fun g hg =>
    hne g (List.mem_append_right _ (List.mem_cons_of_mem (a :: b :: as) hg))
  simp only [List.length_append, List.length_cons, List.flatten_append, List.flatten_cons]
  omega

theorem Spelt.ok {p rest : Bytes} {ps : List Piece} (h : Spelt σ p ps rest) :
    ∀ a ∈ ps, a.Ok σ := by
  obtain ⟨gs, rfl, hgs, -, -⟩ := h.groups
  intro a ha
  obtain ⟨g, hg, hmem⟩ := List.mem_flatten.mp ha
  exact (hgs g hg).2.2 a hmem

/-- The same pieces, with a '/' before each. -/
theorem Spelt.spread {p rest : Bytes} {ps : List Piece} (h : Spelt σ p ps rest) (hf : NulFree p) :
    ∃ q, NulFree q ∧ Spelt σ q ps rest ∧ pathSegments q = ps.map (Piece.text σ) := by
  have hok := h.ok
  obtain ⟨gs, rfl, hgs, hp, -⟩ := h.groups
  have hne : pathOf (gs.flatten.map (Piece.text σ)) ++ rest ≠ [] := by
    intro hnil
    obtain ⟨hnil, rfl⟩ := List.append_eq_nil_iff.mp hnil
    cases gs with
    | nil =>
      have hhead := h.1
      rw [hp] at hhead
      simp [pathOf] at hhead
    | cons g gs =>
      obtain ⟨a, as, rfl⟩ := List.exists_cons_of_ne_nil (hgs g List.mem_cons_self).1
      simp [pathOf] at hnil
  refine ⟨pathOf (gs.flatten.map (Piece.text σ)) ++ rest, ?_, spelt_pathOf hok h.2.2 hne,
    pathSegments_path (fun s hs => ?_) h.2.2⟩
  · intro hzero
    rw [hp] at hf
    refine hf (List.mem_append.mpr ((List.mem_append.mp hzero).imp_left fun hmem => ?_))
    obtain ⟨s, hs, hzero⟩ := List.mem_flatMap.mp hmem
    obtain ⟨a, ha, rfl⟩ := List.mem_map.mp hs
    obtain ⟨g, hg, hmem⟩ := List.mem_flatten.mp ha
    have hzero : 0 ∈ a.text σ := (List.mem_cons.mp hzero).resolve_left (by decide)
    exact List.mem_flatMap.mpr ⟨groupText σ g, List.mem_map_of_mem hg,
      List.mem_cons_of_mem _ (List.mem_flatMap.mpr ⟨a, hmem, hzero⟩)⟩
  · obtain ⟨a, ha, rfl⟩ := List.mem_map.mp hs
    obtain ⟨b, t, htext, -, -⟩ := (hok a ha).head
    exact ⟨by simp [htext], (hok a ha).slash_free⟩

/-- A segment that goes on behind a closing delimiter is more than one piece. -/
theorem Spelt.overruns_length {p rest : Bytes} {ps : List Piece} (h : Spelt σ p ps rest)
    (hover : ∃ seg ∈ pathSegments p, Overruns σ seg) : (pathSegments p).length < ps.length := by
  obtain ⟨gs, rfl, hgs, -, hsegs⟩ := h.groups
  rw [hsegs] at hover ⊢
  obtain ⟨seg, hseg, hover⟩ := hover
  obtain ⟨g, hg, rfl⟩ := List.mem_map.mp hseg
  obtain ⟨a, as, rfl⟩ := List.exists_cons_of_ne_nil (hgs g hg).1
  rw [List.length_map]
  cases as with
  | nil =>
    have htext : groupText σ [a] = a.text σ := List.append_nil _
    rw [htext] at hover
    exact absurd hover (not_overruns_piece ((hgs [a] hg).2.2 a (List.mem_singleton_self a)))
  | cons b as => exact two_lt_flatten (fun g hg => (hgs g hg).1) hg

/-- The tokens cover the segments one by one exactly where no segment goes on behind the
closing delimiter of its parameter. -/
theorem Spelt.covers_iff {p rest : Bytes} {ps : List Piece} (h : Spelt σ p ps rest) :
    List.Forall₂ (Covers σ) (ps.map Piece.tok) (pathSegments p) ↔
      ∀ seg ∈ pathSegments p, ¬ Overruns σ seg := by
  obtain ⟨gs, rfl, hgs, -, hsegs⟩ := h.groups
  rw [hsegs]
  have hne : ∀ g ∈ gs, g ≠ [] := fun g hg => (hgs g hg).1
  constructor
  · intro hall
    have hlen := hall.length_eq
    rw [List.length_map, List.length_map] at hlen
    intro seg hseg hover
    have hlt := h.overruns_length ⟨seg, by rw [hsegs]; exact hseg, hover⟩
    rw [hsegs, List.length_map] at hlt
    exact absurd hlen (Nat.ne_of_gt hlt)
  · intro hno
    obtain ⟨as, rfl⟩ := singles hne fun a b as hg =>
      hno _ (List.mem_map_of_mem hg) (overruns_group (hgs _ hg).2)
    rw [groupText_singles, flatten_singles, List.forall₂_map_left_iff,
      List.forall₂_map_right_iff, List.forall₂_same]
    exact fun a ha => piece_covers
      ((hgs [a] (List.mem_map.mpr ⟨a, ha, rfl⟩)).2.2 a (List.mem_singleton_self a))

/-- Segments that the same token covers. -/
def SameToken (σ : ParamSyntax) (s t : Bytes) : Prop := ∃ a, Covers σ a s ∧ Covers σ a t

/-- Segments that one token covers differ in nothing the token shows. -/
theorem sameToken_of_covers {ts : List Tok} {ss ss' : List Bytes}
    (h : List.Forall₂ (Covers σ) ts ss) (h' : List.Forall₂ (Covers σ) ts ss') :
    List.Forall₂ (SameToken σ) ss ss' := by
  induction h generalizing ss' with
  | nil =>
    cases h'
    exact .nil
  | cons hcover _ ih =>
    cases h' with
    | cons hcover' hrest => exact .cons ⟨_, hcover, hcover'⟩ (ih hrest)

/-- One token for each segment, except behind a closing delimiter: there, and only there, a
pattern has the tokens of another one that is split in more segments. -/
theorem one_token_per_segment (σ : ParamSyntax) {p : Bytes} (hf : NulFree p)
    (hacc : .illegal ∉ patternWord σ p) :
    (List.Forall₂ (Covers σ) (patternWord σ p).dropLast (pathSegments p) ↔
      ∀ seg ∈ pathSegments p, ¬ Overruns σ seg) ∧
    (∀ q, NulFree q → .illegal ∉ patternWord σ q → (∀ seg ∈ pathSegments p, ¬ Overruns σ seg) →
      (∀ seg ∈ pathSegments q, ¬ Overruns σ seg) → patternWord σ p = patternWord σ q →
      List.Forall₂ (SameToken σ) (pathSegments p) (pathSegments q)) ∧
    ((∃ seg ∈ pathSegments p, Overruns σ seg) → ∃ q, NulFree q ∧
      patternWord σ q = patternWord σ p ∧ (pathSegments p).length < (pathSegments q).length) := by
  have hcovers (q : Bytes) (hq : NulFree q) (haccq : .illegal ∉ patternWord σ q) :
      List.Forall₂ (Covers σ) (patternWord σ q).dropLast (pathSegments q) ↔
        ∀ seg ∈ pathSegments q, ¬ Overruns σ seg := by
    obtain ⟨ps, rest, h⟩ := (accepted_iff hq).mp haccq
    rw [h.word hq, List.dropLast_concat]
    exact h.covers_iff
  refine ⟨hcovers p hf hacc, fun q hq haccq hp hq' hsame => ?_, ?_⟩
  · have hpc := (hcovers p hf hacc).mpr hp
    have hqc := (hcovers q hq haccq).mpr hq'
    rw [← hsame] at hqc
    exact sameToken_of_covers hpc hqc
  · intro hover
    obtain ⟨ps, rest, h⟩ := (accepted_iff hf).mp hacc
    obtain ⟨q, hq, hspelt, hsegs⟩ := h.spread hf
    refine ⟨q, hq, by rw [hspelt.word hq, h.word hf], ?_⟩
    rw [hsegs, List.length_map]
    exact h.overruns_length hover

/-- `/<a>b` has one segment and two tokens. -/
theorem one_token_per_segment_angle : ∃ q, NulFree q ∧
    patternWord .angle q = patternWord .angle (ascii "/<a>b") ∧
    (pathSegments (ascii "/<a>b")).length < (pathSegments q).length := by
  have hf : NulFree (ascii "/<a>b") := by
    unfold NulFree
    decide
  exact (one_token_per_segment .angle hf (by decide)).2.2
    ⟨ascii "<a>b", by decide, 62, ascii "a", ascii "b", rfl, by decide, by decide, by decide⟩

/-- `/<a>b` is accepted as `/<a>/b`: two tokens from one segment. -/
theorem token_not_segment : .illegal ∉ patternWord .angle (ascii "/<a>b") ∧
    ¬ List.Forall₂ (Covers .angle) (patternWord .angle (ascii "/<a>b")).dropLast
      (pathSegments (ascii "/<a>b")) ∧
    patternWord .angle (ascii "/<a>b") = patternWord .angle (ascii "/<a>/b") ∧
    pathSegments (ascii "/<a>b") ≠ pathSegments (ascii "/<a>/b") := by
  refine ⟨by decide, fun h => ?_, by decide, by decide⟩
  exact absurd h.length_eq (by decide)

/-! ## Closing delimiters -/

/-- A beginning of the pattern spells pieces the last of which is a parameter that runs up to
a '/' or the end, its closing delimiter missing. -/
def LeavesOpen (σ : ParamSyntax) (p : Bytes) : Prop :=
  p.head? = some slash ∧ ∃ ps rest name, Spells σ p (ps ++ [.param name false]) rest

theorem Spells.last {c rest : Bytes} {ps : List Piece} {a : Piece}
    (h : Spells σ c (ps ++ [a]) rest) : a.Ok σ ∧ (a.glues ∨ AtSlash rest) ∧
      ∃ pre, c = pre ++ (a.text σ ++ rest) := by
  induction ps generalizing c with
  | nil =>
    cases h with
    | piece _ ha hc hrest =>
      cases hrest
      exact ⟨ha, hc, _, rfl⟩
  | cons b ps ih =>
    cases h with
    | piece _ _ _ hrest =>
      obtain ⟨ha, hc, pre, rfl⟩ := ih hrest
      exact ⟨ha, hc, _, by rw [← List.append_assoc, ← List.append_assoc]⟩

theorem Spells.until {c rest : Bytes} {ps qs : List Piece} (h : Spells σ c (ps ++ qs) rest) :
    ∃ r, Spells σ c ps r := by
  induction ps generalizing c with
  | nil => exact ⟨c, .nil c⟩
  | cons a ps ih =>
    cases h with
    | piece hsl ha hc hrest =>
      obtain ⟨r, hr⟩ := ih hrest
      exact ⟨r, .piece hsl ha hc hr⟩

/-- The parameter stands in the pattern between its delimiters, and its pointer is there. -/
def Enclosed (σ : ParamSyntax) (d : UInt8) (p : Bytes) (t : Token) : Prop :=
  validName t.text ∧ t.text.length = t.length ∧ t.length ≤ lexerCharLimit ∧
    ∃ pre rest, p = pre ++ opening σ :: (t.text ++ d :: rest) ∧ t.ptr = some (t.text ++ d :: rest)

theorem param_token_text (name rest : Bytes) (closed : Bool) :
    (Piece.token σ rest (.param name closed)).text = name := by
  simp [Piece.token, Token.text]

/-- A parameter that was closed stands between its delimiters. -/
theorem enclosed_closed {p rest name : Bytes} {ps : List Piece} {d : UInt8}
    (hd : closing σ = some d) (h : Spells σ p (ps ++ [.param name true]) rest) :
    Enclosed σ d p (Piece.token σ rest (.param name true)) := by
  obtain ⟨⟨hvalid, hlen, -⟩, -, pre, hp⟩ := h.last
  have hcloser : closer σ true = [d] := by simp [closer, hd]
  refine ⟨by rwa [param_token_text], by rw [param_token_text]; rfl, hlen, pre, rest, ?_, ?_⟩
  · rw [param_token_text, hp]
    simp [Piece.text, hcloser]
  · rw [param_token_text, Piece.token, hcloser]
    rfl

theorem closing_ne_slash {d : UInt8} (hd : closing σ = some d) : d ≠ slash := by
  cases σ <;> simp only [closing, Option.some.injEq, reduceCtorEq] at hd <;> subst hd <;> decide

theorem not_enclosed_open {p rest name : Bytes} {ps : List Piece} {d : UInt8}
    (hd : closing σ = some d) (h : Spells σ p (ps ++ [.param name false]) rest) :
    ¬ Enclosed σ d p (Piece.token σ rest (.param name false)) := by
  rintro ⟨-, -, -, pre, more, -, hptr⟩
  have hslash : AtSlash rest := h.last.2.1.resolve_left (by simp [Piece.glues])
  rw [param_token_text] at hptr
  have hrest : rest = d :: more := by simpa [Piece.token, closer] using hptr
  exact closing_ne_slash hd (hslash d (by rw [hrest]; rfl))

/-- A segment of an accepted pattern that opens a parameter shows it as a piece. -/
theorem Spelt.opens {p rest seg : Bytes} {ps : List Piece} (h : Spelt σ p ps rest)
    (hseg : seg ∈ p.splitOn slash) (hopen : seg.head? = some (opening σ)) :
    ∃ (name : Bytes) (closed : Bool), .param name closed ∈ ps ∧
      (closed → ∃ d, closing σ = some d ∧ d ∈ seg) := by
  obtain ⟨gs, rfl, hgs, -, hsegs⟩ := h.groups
  have hne : seg ≠ [] := by
    rintro rfl
    simp at hopen
  have hmem : seg ∈ pathSegments p := List.mem_filter.mpr ⟨hseg, by simp [hne]⟩
  rw [hsegs] at hmem
  obtain ⟨g, hg, rfl⟩ := List.mem_map.mp hmem
  obtain ⟨a, as, rfl⟩ := List.exists_cons_of_ne_nil (hgs g hg).1
  have hok := (hgs _ hg).2.2 a List.mem_cons_self
  have hin : a ∈ gs.flatten := List.mem_flatten.mpr ⟨_, hg, List.mem_cons_self⟩
  cases a with
  | literal s =>
    obtain ⟨b, t, htext, -, -⟩ := hok.head
    obtain rfl : s = b :: t := htext
    exact absurd (by simpa [groupText, Piece.text] using hopen) hok.2.1
  | param name closed =>
    refine ⟨name, closed, hin, fun hclosed => ?_⟩
    obtain ⟨d, hd⟩ := Option.isSome_iff_exists.mp (hok.2.2 hclosed)
    exact ⟨d, hd, by simp [groupText, Piece.text, closer, hclosed, hd]⟩
  | wildcard =>
    exact absurd (by simpa [groupText, Piece.text] using hopen.symm) opening_ne.2.2

/-- Every parameter is closed, and a segment that opens one without closing it makes the
pattern illegal, unless the pattern leaves a parameter open. -/
theorem params_closed_iff {d : UInt8} (hd : closing σ = some d) {p : Bytes} (hf : NulFree p) :
    ((∀ t ∈ patternTokens σ (some p), t.type = .param → Enclosed σ d p t) ∧
      ∀ seg ∈ p.splitOn slash, seg.head? = some (opening σ) → d ∉ seg →
        .illegal ∈ patternWord σ p) ↔ ¬ LeavesOpen σ p := by
  constructor
  · rintro ⟨hclosed, -⟩ ⟨hhead, ps, rest, name, h⟩
    obtain ⟨ts, more, htokens, -, -, hlast, -⟩ := patternTokens_spells hhead h
    refine not_enclosed_open hd h (hclosed _ ?_ rfl)
    rw [htokens]
    exact List.mem_append_left _ (hlast ps _ rfl)
  · intro hno
    constructor
    · intro t ht htype
      by_cases hhead : p.head? = some slash
      · obtain ⟨ps, rest, h, hstop⟩ := exists_spells σ p
        obtain ⟨ts, more, htokens, -, hmem, -, hmore⟩ := patternTokens_spells hhead h
        rw [htokens, hmore hf hstop] at ht
        rcases List.mem_append.mp ht with ht | ht
        · obtain ⟨qs, a, r, hspells, rfl⟩ := hmem t ht
          cases a with
          | param name closed =>
            cases closed with
            | false => exact absurd ⟨hhead, qs, r, name, hspells⟩ hno
            | true => exact enclosed_closed hd hspells
          | _ => simp [Piece.token, Token.bare] at htype
        · obtain rfl := List.mem_singleton.mp ht
          have htype : finish (rest.length = p.length) rest = .param := htype
          unfold finish at htype
          split at htype
          · simp at htype
          · split at htype
            · split at htype <;> simp at htype
            · simp at htype
      · rw [patternTokens_other hhead, List.mem_singleton] at ht
        subst ht
        simp [Token.bare] at htype
    · intro seg hseg hopen hnot
      by_contra hacc
      obtain ⟨ps, rest, h⟩ := (accepted_iff hf).mp hacc
      obtain ⟨name, closed, hmem, hclosed⟩ := h.opens hseg hopen
      cases closed with
      | true =>
        obtain ⟨d', hd', hin⟩ := hclosed rfl
        obtain rfl : d' = d := Option.some.inj (hd'.symm.trans hd)
        exact hnot hin
      | false =>
        obtain ⟨before, after, rfl⟩ := List.append_of_mem hmem
        have hspells := h.2.1
        rw [List.append_cons] at hspells
        obtain ⟨r, hr⟩ := hspells.until
        exact hno ⟨h.1, before, r, name, hr⟩

/-- `/{a/b` never closes its parameter, and is accepted all the same. -/
theorem params_closed_iff_brace :
    ¬ ((∀ t ∈ patternTokens .brace (some (ascii "/\x7ba/b")), t.type = .param →
        Enclosed .brace 125 (ascii "/\x7ba/b") t) ∧
      ∀ seg ∈ (ascii "/\x7ba/b").splitOn slash, seg.head? = some (opening .brace) → 125 ∉ seg →
        .illegal ∈ patternWord .brace (ascii "/\x7ba/b")) := by
  have hf : NulFree (ascii "/\x7ba/b") := by
    unfold NulFree
    decide
  have hopen : LeavesOpen .brace (ascii "/\x7ba/b") := by
    have hok : (Piece.param (ascii "a") false).Ok .brace := ⟨by decide, by decide, by decide⟩
    have hslash : AtSlash (ascii "/b") := fun b hb => (Option.some.inj hb).symm
    exact ⟨rfl, [], ascii "/b", ascii "a", .piece (Or.inr rfl) hok (Or.inr hslash) (.nil _)⟩
  exact fun h => (params_closed_iff (rfl : closing .brace = some 125) hf).mp h hopen

/-- `{a` without its closing brace is accepted as a parameter. -/
theorem unclosed_param : .illegal ∉ patternWord .brace (ascii "/\x7ba") ∧
    (∃ t ∈ patternTokens .brace (some (ascii "/\x7ba")), t.type = .param ∧
      ¬ Enclosed .brace 125 (ascii "/\x7ba") t) ∧
    ∃ seg ∈ (ascii "/\x7ba").splitOn slash, seg.head? = some (opening .brace) ∧ 125 ∉ seg := by
  refine ⟨by decide, ⟨_, List.mem_cons_self, by decide, ?_⟩,
    ascii "\x7ba", by decide, by decide, by decide⟩
  rintro ⟨-, -, -, pre, rest, hp, -⟩
  have hmem : 125 ∈ ascii "/\x7ba" := by
    rw [hp]
    simp
  exact absurd hmem (by decide)

end Wrouter
