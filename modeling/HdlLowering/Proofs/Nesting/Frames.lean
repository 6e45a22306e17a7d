import HdlLowering.Proofs.Nesting.Lifting

/-!
# The frames of open entities

`Amid` says what holds of the state inside entities whose ports and constants are lists `E`, the innermost one first: each has a
frame, which declares these, has aliases of symbols further out, and owes wires from what it declares or has an alias of. How
much is known of the design is left open (`Setting`).
-/

namespace HdlLowering.Nesting

open List Node Scopes Substitution SymbolTable

open Substitution (keys targets)

/-! ## What is known of a design -/

/-- What is known of a design that is lifted: its symbols, those that nested entities may share, the symbols of its entities, and
the values that may be recorded. -/
structure Setting where
  start : Context
  known : Symbol → Prop
  shared : Symbol → Prop
  entity : Symbol → Prop
  value : Symbol → Option Expr → Prop
  listed : ∀ {x}, known x → x.index < start.symbols.entries.size
  numbered : ∀ {x y}, known x → known y → start.symbols.id x = start.symbols.id y → x = y
  entities : ∀ {x}, known x → entity x → isEntity (start.symbols.kind x) = true
  shares : ∀ {x}, shared x → known x ∧ exported (start.symbols.kind x) = true
  values : ∀ {x init}, shared x → (start.symbols.kind x).isConst = true → start.symbols.init x = some init ∨ value x (some init) →
    ∀ u ∈ references init.nodes, known u.symbol
  made : ∀ {x init}, start.symbols.entries.size ≤ x.index → value x init

namespace Setting

variable (D : Setting) {x : Symbol}

abbrev table : SymbolTable := D.start.symbols

def fresh (x : Symbol) (_ : Option Expr) : Prop := D.table.entries.size ≤ x.index

structure Reads (e : Entity) : Prop where
  references : ∀ u ∈ references e.ownNodes, D.known u.symbol
  decls : ∀ d ∈ e.decls, D.known d.symbol ∧ D.value d.symbol d.init
  exports : ∀ x ∈ e.exports D.table, D.shared x
  symbol : D.entity e.symbol

def ReadsAll (es : List Entity) : Prop := ∀ e ∈ Node.entities (Entity.nodesList es), D.Reads e

def Listed : Prop := ∀ {x}, D.entity x → x.index < D.table.entries.size

variable {D}

theorem readsAll_cons {e : Entity} {es : List Entity} :
    D.ReadsAll (e :: es) ↔ D.Reads e ∧ D.ReadsAll e.entities ∧ D.ReadsAll es := by
  unfold ReadsAll
  rw [Node.entities_nodesList_cons, forall_mem_cons, forall_mem_append]

theorem old (h : D.shared x) : x.index < D.table.entries.size := D.listed (D.shares h).1

theorem apart (h : D.shared x) : ¬D.entity x := by
  obtain ⟨hknown, hexported⟩ := D.shares h
  intro hentity
  rw [(exported_of_isEntity (D.entities hknown hentity)).1] at hexported
  cases hexported

theorem widen {W W' : Symbol → Prop} {c c' : Context} (h : Stays D.entity W D.fresh c c') (hW : ∀ x, W x → W' x) :
    Stays D.entity W' D.value c c' := h.mono (fun _ h => h) hW fun _ _ h => D.made h

end Setting

variable {D : Setting} {W : Symbol → Prop} {V : Symbol → Option Expr → Prop} {c c' : Context} {x y a : Symbol} {k : Kind}
  {own outer : List Symbol} {E : List (List Symbol)} {f p p' : Frame} {F : List Frame} {e e' : Entity} {s s' : Session State}
  {m : Substitution} {ports : Substitution}

/-- A symbol made since the start as an alias of another: it has its name and kind up to storage, unless it is the symbol of an
entity. -/
structure Alias (D : Setting) (c : Context) (x a : Symbol) : Prop where
  made : D.table.entries.size ≤ a.index
  listed : a.index < c.symbols.entries.size
  lifted : c.symbols.liftedFrom a = some x
  name : ¬D.entity a → c.symbols.name a = D.table.name x
  kind : ¬D.entity a → asWire (c.symbols.kind a) = asWire (D.table.kind x)

theorem Alias.later (h : Alias D c x a) (hstays : Stays D.entity W V c c') : Alias D c' x a where
  made := h.made
  listed := hstays.listed h.listed
  lifted := (hstays.liftedFrom h.listed).trans h.lifted
  name ha := (hstays.name h.listed ha).trans (h.name ha)
  kind ha := (hstays.asWire_kind h.listed ha).trans (h.kind ha)

theorem Alias.not_entity (h : Alias D c x a) (hD : D.Listed) : ¬D.entity a := fun hentity => Nat.not_le_of_lt (hD hentity) h.made

theorem Alias.not_shared (h : Alias D c x a) : ¬D.shared a := fun hshared => Nat.not_le_of_lt (D.old hshared) h.made

theorem Makes.alias (h : Makes c c' x a k) (hsince : Stays D.entity W V D.start c) (hx : D.shared x)
    (hk : asWire k = asWire (c.symbols.kind x)) : Alias D c' x a where
  made := Nat.le_trans hsince.size h.made
  listed := h.listed
  lifted := h.lifted
  name _ := h.name.trans (hsince.name (D.old hx) (D.apart hx))
  kind _ := by rw [h.kind, hk, hsince.asWire_kind (D.old hx) (D.apart hx)]

/-! ## Frames -/

/-- Where the wire to a port that stands for a symbol comes from: the symbol itself where it is declared, else its alias. -/
def source (own : List Symbol) (aliases : Substitution) (x : Symbol) : Symbol := if x ∈ own then x else aliases.rename x

theorem mem_of_mem_keys (h : x ∈ m.keys) : (x, m.rename x) ∈ m := mem_lookup h x

theorem source_append (h : x ∈ own ∨ x ∈ m.keys) (more : Substitution) : source own (m ++ more) x = source own m x := by
  unfold source
  split
  · rfl
  · rename_i hx
    obtain ⟨y, hlookup⟩ := exists_lookup (h.resolve_left hx)
    rw [rename, rename, lookup_append, hlookup, Option.some_or]

theorem source_of_lookup (hx : x ∉ own) (h : m.lookup x = some y) : source own m x = y := by
  rw [source, if_neg hx, rename, h, Option.getD_some]

theorem declares_congr {Γ Γ' : SymbolTable} (hid : Γ'.id x = Γ.id x) (f : Frame) : f.declares Γ' x = f.declares Γ x := by
  simp only [Frame.declares, member, hid, SymbolSet.has]

/-- The frame of an entity that declares the ports and constants `own`, among others that declare `outer`. -/
structure Framed (D : Setting) (c : Context) (outer : List Symbol) (f : Frame) (own : List Symbol) : Prop where
  shows : ∀ x, D.known x → (f.declares D.table x = true ↔ x ∈ own)
  nodup : (keys f.aliases).Nodup
  aliases : ∀ a ∈ f.aliases, a.1 ∈ outer ∧ Alias D c a.1 a.2
  obligations : ∀ o ∈ f.obligations, ∃ x, D.shared x ∧ (D.table.kind x).isConst = false ∧ Alias D c x o.port ∧
    (x ∈ own ∨ x ∈ keys f.aliases) ∧ o.source = source own f.aliases x

section

variable (h : Framed D c outer f own)
include h

theorem Framed.later (hstays : Stays D.entity W V c c') : Framed D c' outer f own where
  shows := h.shows
  nodup := h.nodup
  aliases a ha := ⟨(h.aliases a ha).1, (h.aliases a ha).2.later hstays⟩
  obligations o ho := by
    obtain ⟨x, hx, hconst, halias, hcovers⟩ := h.obligations o ho
    exact ⟨x, hx, hconst, halias.later hstays, hcovers⟩

theorem Framed.source_inj (hown : ∀ x ∈ own, D.shared x) (hx : x ∈ own ∨ x ∈ keys f.aliases)
    (hy : y ∈ own ∨ y ∈ keys f.aliases) (heq : source own f.aliases x = source own f.aliases y) : x = y := by
  have hmade : ∀ z, z ∉ own → z ∈ own ∨ z ∈ keys f.aliases →
      source own f.aliases z ∉ own ∧ c.symbols.liftedFrom (source own f.aliases z) = some z := by
    intro z hz hmem
    have halias := (h.aliases _ (mem_of_mem_keys (hmem.resolve_left hz))).2
    rw [source, if_neg hz]
    exact ⟨fun hin => halias.not_shared (hown _ hin), halias.lifted⟩
  by_cases hxown : x ∈ own
  · by_cases hyown : y ∈ own
    · rwa [source, if_pos hxown, source, if_pos hyown] at heq
    · refine absurd ?_ (hmade y hyown hy).1
      rw [← heq, source, if_pos hxown]
      exact hxown
  · by_cases hyown : y ∈ own
    · refine absurd ?_ (hmade x hxown hx).1
      rw [heq, source, if_pos hyown]
      exact hyown
    · have hlifted := (hmade x hxown hx).2
      rw [heq, (hmade y hyown hy).2] at hlifted
      exact (Option.some.inj hlifted).symm

theorem Framed.obligedConnects_eq (hstays : Stays D.entity D.shared V c c')
    (hD : D.Listed) (instances : List Instance) :
    f.obligations.flatMap (obligedConnects c'.symbols instances) = f.obligations.flatMap (obligedConnects c.symbols instances) := by
  refine flatMap_congr fun o ho => ?_
  obtain ⟨x, -, -, halias, -⟩ := h.obligations o ho
  have hentity := halias.not_entity hD
  simp only [obligedConnects, hstays.name halias.listed hentity, hstays.kind_eq halias.listed hentity halias.not_shared]

end

inductive Frames (D : Setting) (c : Context) : List Frame → List (List Symbol) → Prop where
  | nil : Frames D c [] []
  | cons {f : Frame} {F : List Frame} {own : List Symbol} {E : List (List Symbol)} (framed : Framed D c E.flatten f own)
    (around : Frames D c F E) : Frames D c (f :: F) (own :: E)

theorem Frames.later (h : Frames D c F E) (hstays : Stays D.entity W V c c') : Frames D c' F E := by
  induction h with
  | nil => exact .nil
  | cons framed _ ih => exact .cons (framed.later hstays) ih

theorem Frames.any_declares_iff {Γ : SymbolTable} (h : Frames D c F E) (hx : D.known x) (hid : Γ.id x = D.table.id x) :
    F.any (·.declares Γ x) = true ↔ x ∈ E.flatten := by
  induction h with
  | nil => simp
  | cons framed _ ih =>
    rw [any_cons, Bool.or_eq_true, flatten_cons, mem_append, declares_congr hid, framed.shows x hx]
    exact or_congr_right ih

/-- The state inside entities whose ports and constants are `E`. -/
structure Amid (D : Setting) (E : List (List Symbol)) (s : Session State) : Prop where
  since : Stays D.entity D.known D.value D.start s.ctx
  frames : Frames D s.ctx s.own.frames.items E
  visible : ∀ x ∈ E.flatten, D.shared x

/-! ## Opening an entity -/

theorem exported_since (h : Stays D.entity D.known V D.start c) (hx : D.known x) :
    exported (c.symbols.kind x) = exported (D.table.kind x) := by
  by_cases hentity : D.entity x
  · have hthen := D.entities hx hentity
    have hnow := (h.entry x (D.listed hx)).entity hthen
    exact (exported_of_isEntity hnow).1.trans (exported_of_isEntity hthen).1.symm
  · exact exported_congr (h.asWire_kind (D.listed hx) hentity)

theorem isConst_since (h : Stays D.entity W V D.start c) (hx : D.shared x) :
    (c.symbols.kind x).isConst = (D.table.kind x).isConst :=
  isConst_congr (h.asWire_kind (D.old hx) (D.apart hx))

/-- What opening an entity leaves: its frame, with one alias of every outer symbol that it uses. -/
structure Entered (D : Setting) (E : List (List Symbol)) (e : Entity) (s : Session State) (f : Frame) (s' : Session State) :
    Prop where
  frames : s'.own.frames.items = f :: s.own.frames.items
  obligations : f.obligations = []
  stays : Stays D.entity (fun _ => False) (fun x init => ∃ d ∈ e.decls, d.symbol = x ∧ d.init = init) s.ctx s'.ctx
  made : Made e.symbol s f.aliases s'
  outer : ∀ x ∈ keys f.aliases, x ∈ E.flatten ∧
    ((D.table.kind x).isConst = true ∨ ∃ u ∈ references e.ownNodes, u.symbol = x)
  direct : ∀ u ∈ references e.ownNodes, u.symbol ∈ E.flatten → u.symbol ∈ keys f.aliases
  closed : ∀ x ∈ keys f.aliases, (D.table.kind x).isConst = true → ∀ init, s'.ctx.symbols.init x = some init →
    ∀ u ∈ references init.nodes, u.symbol ∈ E.flatten → (D.table.kind u.symbol).isConst = true → u.symbol ∈ keys f.aliases
  amid : Amid D (e.exports D.table :: E) s'

/-- Opening an entity. -/
theorem Amid.enter (h : Amid D E s) (he : D.Reads e) (henter : enterEntity e s = .ok () s') : ∃ f, Entered D E e s f s' := by
  obtain ⟨f, c, hframes, hobligations, hdeclares, hrecords, hmakes, hkeys, hmade⟩ := of_done (enterEntity_ok e s) henter
  have hstays : Stays D.entity (fun _ => False) (fun x init => ∃ d ∈ e.decls, d.symbol = x ∧ d.init = init) s.ctx s'.ctx :=
    (hrecords fun d hd => ⟨d, hd, rfl, rfl⟩).trans hmakes
  have hsince : Stays D.entity D.known D.value D.start c := h.since.trans (hrecords fun d hd => (he.decls d hd).2)
  have hid : ∀ {x}, D.known x → c.symbols.id x = D.table.id x := fun hx => hsince.id (D.listed hx)
  have houter : ∀ {x}, D.known x → (isOuter c.symbols s.own.frames x = true ↔ x ∈ E.flatten) := fun hx =>
    h.frames.any_declares_iff hx (hid hx)
  have hdepends : ∀ {x t}, D.shared x → t ∈ names (dependencies c.symbols x) → D.known t ∧ (c.symbols.kind t).isConst = true := by
    intro x t hx ht
    obtain ⟨hconst, init, hinit⟩ := of_mem_dependencies ht
    obtain ⟨hmem, htconst⟩ := (mem_dependencies hconst hinit).mp ht
    obtain ⟨u, hu, rfl⟩ := mem_map.mp hmem
    refine ⟨D.values hx ((isConst_since hsince hx).symm.trans hconst) ?_ u hu, htconst⟩
    rw [← hinit]
    exact (hsince.init (D.old hx)).imp_left Eq.symm
  -- the symbols that it uses are visible
  obtain ⟨hnodup, hsound, hdirect, hclosed⟩ := outerUses_complete (Γ := c.symbols) (e := e)
    (V := fun x => x ∈ E.flatten ∧ ((c.symbols.kind x).isConst = true ∨ ∃ u ∈ references e.ownNodes, u.symbol = x))
    (fun x hx => hsince.listed (D.old (h.visible x hx.1)))
    (fun x hx t ht hto => by
      obtain ⟨hknown, hconst⟩ := hdepends (h.visible x hx.1) ht
      exact ⟨(houter hknown).mp hto, Or.inl hconst⟩)
    fun u hu huo => ⟨(houter (he.references u hu)).mp huo, Or.inr ⟨u, hu, rfl⟩⟩
  rw [← hkeys] at hnodup hsound hdirect hclosed
  have hshared : ∀ x ∈ keys f.aliases, D.shared x := fun x hx => h.visible x (hsound x hx).1
  have hframed : Framed D s'.ctx E.flatten f (e.exports D.table) := by
    refine ⟨fun x hx => ?_, hnodup, fun a ha => ?_, fun o ho => ?_⟩
    · have hdecls : ∀ y ∈ e.decls.map (·.symbol), D.known y := by
        intro y hy
        obtain ⟨d, hd, rfl⟩ := mem_map.mp hy
        exact (he.decls d hd).1
      rw [hdeclares, any_eq_true, Entity.exports, mem_filter]
      simp only [Bool.and_eq_true, beq_iff_eq]
      constructor
      · rintro ⟨y, hy, hexported, hyx⟩
        rw [hid (hdecls y hy)] at hyx
        obtain rfl := D.numbered (hdecls y hy) hx hyx
        rw [exported_since hsince hx] at hexported
        exact ⟨hy, hexported⟩
      · rintro ⟨hy, hexported⟩
        refine ⟨x, hy, ?_, hid hx⟩
        rw [exported_since hsince hx]
        exact hexported
    · have hkey : a.1 ∈ keys f.aliases := mem_map_of_mem ha
      have hx := hshared a.1 hkey
      exact ⟨(hsound a.1 hkey).1, (hmade.makes a ha (h.since.listed (D.old hx))).alias h.since hx rfl⟩
    · rw [hobligations] at ho
      cases ho
  refine ⟨f, hframes, hobligations, hstays, hmade, fun x hx => ?_, fun u hu hvisible => ?_, ?_, ?_, ?_, fun x hx => ?_⟩
  · obtain ⟨hvisible, huse⟩ := hsound x hx
    rw [isConst_since hsince (h.visible x hvisible)] at huse
    exact ⟨hvisible, huse⟩
  · exact hdirect u hu ((houter (he.references u hu)).mpr hvisible)
  · intro x hx hconst init hinit u hu hvisible huconst
    have hold : Stays D.entity (fun _ => False) (fun _ _ => False) c s'.ctx := hmakes
    rw [(hold.init (hsince.listed (D.old (hshared x hx)))).resolve_right fun h => h] at hinit
    have hdep : u.symbol ∈ names (dependencies c.symbols x) := by
      rw [mem_dependencies ((isConst_since hsince (hshared x hx)).trans hconst) hinit]
      exact ⟨mem_names hu, (isConst_since hsince (h.visible _ hvisible)).trans huconst⟩
    exact hclosed x hx u.symbol hdep ((houter (D.shares (h.visible _ hvisible)).1).mpr hvisible)
  · exact hsince.trans hmakes
  · rw [hframes]
    exact .cons hframed (h.frames.later hstays)
  · rcases mem_append.mp hx with hx | hx
    · exact he.exports x hx
    · exact h.visible x hx

/-! ## Closing an entity -/

/-- An entity hands ports over to the one around it: the symbols they stand for become wires, and the frame `p` around gets an
alias of each that it does not declare, as a wire, and owes a wire for each port. -/
structure Handed (D : Setting) (own : List Symbol) (child : Symbol) (ports : Substitution) (c c' : Context) (p p' : Frame) :
    Prop where
  stays : Stays D.entity (· ∈ keys ports) D.fresh c c'
  wire : ∀ a ∈ ports, c'.symbols.kind a.1 = asWire (c.symbols.kind a.1)
  aliases : ∃ more : Substitution, p'.aliases = p.aliases ++ more ∧ ∀ a ∈ more, a.1 ∈ keys ports ∧ a.1 ∉ own ∧
    (¬D.entity a.2 → c'.symbols.kind a.2 = asWire (c.symbols.kind a.1))
  covers : ∀ a ∈ ports, a.1 ∈ own ∨ a.1 ∈ keys p'.aliases
  obligations : p'.obligations = p.obligations ++ ports.map fun a => ⟨child, a.2, source own p'.aliases a.1⟩

theorem Framed.owe {as : Substitution} {port : Symbol} (h : Framed D c outer p own) (child : Symbol) (hx : D.shared x)
    (hconst : (D.table.kind x).isConst = false) (hport : Alias D c x port) (hnodup : (keys (p.aliases ++ as)).Nodup)
    (has : ∀ a ∈ as, a.1 ∈ outer ∧ Alias D c a.1 a.2) (hcovers : x ∈ own ∨ x ∈ keys (p.aliases ++ as)) :
    Framed D c outer (p.owe as ⟨child, port, source own (p.aliases ++ as) x⟩) own where
  shows := h.shows
  nodup := hnodup
  aliases a ha := (mem_append.mp ha).elim (h.aliases a) (has a)
  obligations o ho := by
    rcases mem_append.mp ho with ho | ho
    · obtain ⟨z, hz, hzconst, halias, hzcovers, hsource⟩ := h.obligations o ho
      refine ⟨z, hz, hzconst, halias, hzcovers.imp_right fun hkey => ?_, hsource.trans (source_append hzcovers as).symm⟩
      rw [Frame.owe, Substitution.keys, map_append]
      exact mem_append_left _ hkey
    · rw [mem_singleton.mp ho]
      exact ⟨x, hx, hconst, hport, hcovers, rfl⟩

theorem kind_wired (c : Context) (hx : x.index < c.symbols.entries.size) :
    (wired c x).symbols.kind x = asWire (c.symbols.kind x) := by
  rw [kind, wired, entry_modify, if_pos ⟨rfl, hx⟩]

theorem oblige_handed (child : Symbol) {port : Symbol} (hframes : s.own.frames.items = f :: p :: F)
    (hsince : Stays D.entity D.known D.value D.start s.ctx) (hp : Framed D s.ctx outer p own) (hx : D.shared x)
    (hvisible : x ∈ own ∨ x ∈ outer) (hconst : (D.table.kind x).isConst = false) (hport : Alias D s.ctx x port) :
    ∃ s' p', oblige child x port s = .ok () s' ∧ s'.own.frames.items = f :: p' :: F ∧ s'.own.users = s.own.users ∧
      s'.ctx.reporter = s.ctx.reporter ∧ Handed D own child [(x, port)] s.ctx s'.ctx p p' ∧ Framed D s'.ctx outer p' own := by
  have hlevel : (s.own.frames.level? 1).getD {} = p := by rw [level?, hframes]; rfl
  have hmodify : ∀ g : Frame → Frame, (s.own.frames.modifyLevel 1 g).items = f :: g p :: F := fun g => by
    rw [modifyLevel, hframes]
    rfl
  have hlisted := hsince.listed (D.old hx)
  have hshows : p.declares s.ctx.symbols x = true ↔ x ∈ own := by
    rw [declares_congr (hsince.id (D.old hx)) p]
    exact hp.shows x (D.shares hx).1
  have hstays : Stays D.entity (· ∈ keys [(x, port)]) D.fresh s.ctx (wired s.ctx x) := stays_wired (mem_singleton_self x) _
  have hwire := kind_wired s.ctx hlisted
  have hundeclared : p.declares s.ctx.symbols x = false → x ∉ own := fun hdeclares hown => by
    rw [hshows.mpr hown] at hdeclares
    cases hdeclares
  obtain ⟨y, as, c, hoblige, hstep⟩ := oblige_ok child x port hlevel
  -- the wire comes from the symbol or from an alias that is there, or the frame gets an alias
  obtain ⟨hstays', hreporter, hkind, hcovers, rfl, hnodup, hnew⟩ : Stays D.entity (· ∈ keys [(x, port)]) D.fresh s.ctx c ∧
      c.reporter = s.ctx.reporter ∧ c.symbols.kind x = asWire (s.ctx.symbols.kind x) ∧
      (x ∈ own ∨ x ∈ keys (p.aliases ++ as)) ∧ y = source own (p.aliases ++ as) x ∧ (keys (p.aliases ++ as)).Nodup ∧
      ∀ b ∈ as, b.1 = x ∧ x ∉ own ∧ Alias D c x b.2 ∧ c.symbols.kind b.2 = asWire (s.ctx.symbols.kind x) := by
    rcases hstep with ⟨rfl, rfl, hsource⟩ | ⟨rfl, rfl, rfl, hdeclares, hlookup⟩
    · rw [append_nil]
      refine ⟨hstays, rfl, hwire, ?_, ?_, hp.nodup, forall_mem_nil _⟩ <;> rcases hsource with ⟨hdeclares, rfl⟩ | ⟨hdeclares, hlookup⟩
      · exact Or.inl (hshows.mp hdeclares)
      · exact Or.inr (mem_map_of_mem (mem_of_lookup hlookup))
      · rw [source, if_pos (hshows.mp hdeclares)]
      · exact (source_of_lookup (hundeclared hdeclares) hlookup).symm
    · have hown := hundeclared hdeclares
      let a : Symbol := ⟨(wired s.ctx x).symbols.entries.size⟩
      have hmakes : Makes (wired s.ctx x) _ x a _ := makes_withAlias (wired s.ctx x) x (asWire ((wired s.ctx x).symbols.kind x))
      have hpush := stays_withAlias D.entity (· ∈ keys [(x, port)]) D.fresh (wired s.ctx x) x
        (asWire ((wired s.ctx x).symbols.kind x))
      refine ⟨hstays.trans hpush, rfl, hpush.wire (hstays.listed hlisted) (D.apart hx) hwire,
        Or.inr (by simp [Substitution.keys]), ?_, ?_, ?_⟩
      · refine (source_of_lookup hown ?_).symm
        rw [lookup_append, hlookup]
        simp
      · rw [Substitution.keys, map_append, nodup_append]
        refine ⟨hp.nodup, by simp, ?_⟩
        rintro z hz w hw rfl
        obtain rfl : z = x := mem_singleton.mp hw
        exact lookup_eq_none.mp hlookup hz
      · intro b hb
        rw [mem_singleton.mp hb]
        refine ⟨rfl, hown, hmakes.alias (hsince.trans (stays_wired (D.shares hx).1 _)) hx (asWire_asWire _), ?_⟩
        rw [hmakes.kind, hwire, asWire_asWire]
  refine ⟨_, _, hoblige, hmodify _, rfl, hreporter, ⟨hstays', ?_, ⟨as, rfl, fun b hb => ?_⟩, ?_, rfl⟩, ?_⟩
  · exact forall_mem_singleton.mpr hkind
  · obtain ⟨hbx, hown, -, hkind⟩ := hnew b hb
    rw [hbx]
    exact ⟨mem_singleton_self x, hown, fun _ => hkind⟩
  · exact forall_mem_singleton.mpr hcovers
  · refine (hp.later hstays').owe child hx hconst (hport.later hstays') hnodup (fun b hb => ?_) hcovers
    obtain ⟨hbx, hown, halias, -⟩ := hnew b hb
    rw [hbx]
    exact ⟨hvisible.resolve_left hown, halias⟩

theorem Handed.cons {child port : Symbol} {c'' : Context} {p'' : Frame}
    (h : Handed D own child [(x, port)] c c' p p') (h' : Handed D own child ports c' c'' p' p'') (hx : D.shared x)
    (hports : ∀ a ∈ ports, D.shared a.1) (hlisted : ∀ a, D.shared a → a.index < c.symbols.entries.size)
    (hp' : ∀ a ∈ p'.aliases, a.2.index < c'.symbols.entries.size) :
    Handed D own child ((x, port) :: ports) c c'' p p'' where
  stays := (h.stays.mono (fun _ h => h) (fun z hz => by rw [mem_singleton.mp hz]; exact mem_cons_self)
    fun _ _ h => h).trans (h'.stays.mono (fun _ h => h) (fun z hz => mem_cons_of_mem _ hz) fun _ _ h => h)
  wire := by
    have hkind : ∀ a ∈ ports, asWire (c'.symbols.kind a.1) = asWire (c.symbols.kind a.1) := fun a ha =>
      h.stays.asWire_kind (hlisted _ (hports a ha)) (D.apart (hports a ha))
    rw [forall_mem_cons]
    refine ⟨?_, fun a ha => (h'.wire a ha).trans (hkind a ha)⟩
    exact h'.stays.wire (h.stays.listed (hlisted _ hx)) (D.apart hx) (h.wire _ (mem_singleton_self _))
  aliases := by
    obtain ⟨more, hmore, hnew⟩ := h.aliases
    obtain ⟨more', hmore', hnew'⟩ := h'.aliases
    refine ⟨more ++ more', by rw [hmore', hmore, append_assoc], fun a ha => ?_⟩
    rcases mem_append.mp ha with ha | ha
    · obtain ⟨hkey, hown, hkind⟩ := hnew a ha
      rw [mem_singleton.mp hkey] at hkind hown ⊢
      refine ⟨mem_cons_self, hown, fun hentity => ?_⟩
      exact h'.stays.wire (hp' a (hmore ▸ mem_append_right _ ha)) hentity (hkind hentity)
    · obtain ⟨hkey, hown, hkind⟩ := hnew' a ha
      refine ⟨mem_cons_of_mem _ hkey, hown, fun hentity => (hkind hentity).trans ?_⟩
      obtain ⟨b, hb, hba⟩ := mem_map.mp hkey
      rw [← hba]
      exact h.stays.asWire_kind (hlisted _ (hports b hb)) (D.apart (hports b hb))
  covers := by
    obtain ⟨more', hmore', -⟩ := h'.aliases
    rw [forall_mem_cons]
    refine ⟨(h.covers _ (mem_singleton_self _)).imp_right fun hkey => ?_, h'.covers⟩
    rw [hmore', Substitution.keys, map_append]
    exact mem_append_left _ hkey
  obligations := by
    obtain ⟨more', hmore', -⟩ := h'.aliases
    have hsource : source own p''.aliases x = source own p'.aliases x := by
      rw [hmore', source_append (h.covers _ (mem_singleton_self _))]
    rw [h'.obligations, h.obligations, append_assoc, map_cons, map_cons]
    dsimp only
    rw [hsource]
    rfl

theorem obliges_handed (child : Symbol) : ∀ {ports : Substitution} {s : Session State} {p : Frame},
    s.own.frames.items = f :: p :: F → Stays D.entity D.known D.value D.start s.ctx → Framed D s.ctx outer p own →
    (∀ a ∈ ports, D.shared a.1 ∧ (a.1 ∈ own ∨ a.1 ∈ outer) ∧ (D.table.kind a.1).isConst = false ∧ Alias D s.ctx a.1 a.2) →
    ∃ s' p', (ports.forM fun (x, port) => oblige child x port : PassM State Unit) s = .ok () s' ∧
      s'.own.frames.items = f :: p' :: F ∧ s'.own.users = s.own.users ∧ s'.ctx.reporter = s.ctx.reporter ∧
      Handed D own child ports s.ctx s'.ctx p p' ∧ Framed D s'.ctx outer p' own
  | [], s, p, hframes, _, hp, _ =>
    ⟨s, p, rfl, hframes, rfl, rfl, ⟨.refl _ _ _ _, by simp, ⟨[], by simp, by simp⟩, by simp, by simp⟩, hp⟩
  | (x, port) :: ports, s, p, hframes, hsince, hp, hports => by
    rw [forall_mem_cons] at hports
    obtain ⟨⟨hx, hvisible, hconst, hport⟩, hports⟩ := hports
    obtain ⟨s1, p1, hoblige, hframes1, husers1, hreporter1, hhanded1, hp1⟩ :=
      oblige_handed child hframes hsince hp hx hvisible hconst hport
    have hsince1 : Stays D.entity D.known D.value D.start s1.ctx := hsince.trans (D.widen hhanded1.stays
      fun z hz => by rw [mem_singleton.mp hz]; exact (D.shares hx).1)
    obtain ⟨s2, p2, hforM, hframes2, husers2, hreporter2, hhanded2, hp2⟩ := obliges_handed child hframes1 hsince1 hp1
      fun a ha => ⟨(hports a ha).1, (hports a ha).2.1, (hports a ha).2.2.1, (hports a ha).2.2.2.later hhanded1.stays⟩
    refine ⟨s2, p2, (bind_ok hoblige).trans hforM, hframes2, husers2.trans husers1, hreporter2.trans hreporter1, ?_, hp2⟩
    exact hhanded1.cons hhanded2 hx (fun a ha => (hports a ha).1) (fun a ha => hsince.listed (D.old ha)) fun a ha =>
      (hp1.aliases a ha).2.listed

theorem Handed.within {child : Symbol} {c1 c2 : Context} (h : Handed D own child ports c1 c2 p p')
    (hbefore : Stays D.entity (fun _ => False) D.fresh c c1) (hafter : Stays D.entity (fun _ => False) D.fresh c2 c')
    (hports : ∀ a ∈ ports, D.shared a.1 ∧ a.1.index < c.symbols.entries.size)
    (hp' : ∀ a ∈ p'.aliases, a.2.index < c2.symbols.entries.size) : Handed D own child ports c c' p p' where
  stays := (hbefore.mono (fun _ h => h) (fun _ h => h.elim) fun _ _ h => h).trans
    (h.stays.trans (hafter.mono (fun _ h => h) (fun _ h => h.elim) fun _ _ h => h))
  wire a ha := by
    obtain ⟨hx, hlisted⟩ := hports a ha
    have hlisted1 := hbefore.listed hlisted
    rw [hafter.kind_eq (h.stays.listed hlisted1) (D.apart hx) fun h => h, h.wire a ha,
      hbefore.kind_eq hlisted (D.apart hx) fun h => h]
  aliases := by
    obtain ⟨more, hmore, hnew⟩ := h.aliases
    refine ⟨more, hmore, fun a ha => ?_⟩
    obtain ⟨hkey, hown, hkind⟩ := hnew a ha
    refine ⟨hkey, hown, fun hentity => ?_⟩
    obtain ⟨b, hb, hba⟩ := mem_map.mp hkey
    obtain ⟨hx, hlisted⟩ := hports b hb
    rw [hafter.kind_eq (hp' a (hmore ▸ mem_append_right _ ha)) hentity fun h => h, hkind hentity, ← hba,
      hbefore.kind_eq hlisted (D.apart hx) fun h => h]
  covers := h.covers
  obligations := h.obligations

/-- What stands for an entity that was closed: it declares its aliases and has the wires that it owed. -/
def Result (D : Setting) (e : Entity) (s : Session State) (f : Frame) (e' : Entity) : Prop :=
  ∃ decls c, Forall₂ (DeclaresAlias s.ctx f.aliases (targets f.aliases)) f.aliases decls ∧
    Stays D.entity (fun _ => False) D.fresh s.ctx c ∧
    e' = e.flattened decls (f.obligations.flatMap (obligedConnects c.symbols e.instances))

section

variable {aliases as : Substitution} {fresh : List Symbol} {decls : List Decl}

variable (h : Forall₂ (DeclaresAlias c aliases fresh) as decls)
include h

theorem declared_symbols : decls.map (·.symbol) = targets as := by
  induction h with
  | nil => rfl
  | cons hd _ ih => exact congrArg₂ cons hd.1 ih

theorem exists_of_mem_declared : ∀ d ∈ decls, ∃ a ∈ as, DeclaresAlias c aliases fresh a d := by
  induction h with
  | nil => exact nofun
  | @cons a d as decls hd _ ih =>
    rintro d' (_ | ⟨_, hd'⟩)
    · exact ⟨a, mem_cons_self, hd⟩
    · obtain ⟨b, hb, hdeclares⟩ := ih d' hd'
      exact ⟨b, mem_cons_of_mem _ hb, hdeclares⟩

end

/-- What closing an entity with the frame `f` leaves inside the entities `E`, whose frames are `F`: its ports are handed over, or
outside of all a port with several users is an error. -/
inductive Shut (D : Setting) (symbol : Symbol) (f : Frame) (s : Session State) :
    List (List Symbol) → List Frame → Session State → Prop where
  | outermost {s' : Session State} (own : s'.own = {}) (stays : Stays D.entity (fun _ => False) D.fresh s.ctx s'.ctx)
    (errors : s.ctx.reporter.errorCount ≤ s'.ctx.reporter.errorCount)
    (single : s'.ctx.reporter.errorCount = s.ctx.reporter.errorCount → ∀ x, (usersOf s.own.users x).length ≤ 1) :
    Shut D symbol f s [] [] s'
  | inside {own : List Symbol} {E : List (List Symbol)} {p p' : Frame} {F : List Frame} {s' : Session State}
    (frames : s'.own.frames.items = p' :: F)
    (handed : Handed D own symbol (portsOf D.table f.aliases) s.ctx s'.ctx p p') (users : s'.own.users = s.own.users)
    (reporter : s'.ctx.reporter = s.ctx.reporter) (signature : symbol.index < s.ctx.symbols.entries.size →
      ∀ a ∈ portsOf D.table f.aliases, a.2 ∈ s'.ctx.symbols.entityPorts symbol) :
    Shut D symbol f s (own :: E) (p :: F) s'

/-- Closing an entity. -/
theorem Amid.close (h : Amid D (own :: E) s) (hframes : s.own.frames.items = f :: F) (hsymbol : D.entity e.symbol)
    (hnested : ∀ c ∈ e.entities, D.entity c.symbol) (hclosed : Closed e s e' s') :
    Result D e s f e' ∧ Shut D e.symbol f s E F s' ∧ Amid D E s' := by
  have htop : s.own.top = f := by rw [State.top, top?, hframes]; rfl
  have hall := h.frames
  rw [hframes] at hall
  obtain ⟨hf, hF⟩ : Framed D s.ctx E.flatten f own ∧ Frames D s.ctx F E := by
    cases hall with
    | cons framed around => exact ⟨framed, around⟩
  have hvisible : ∀ x ∈ E.flatten, D.shared x := fun x hx => h.visible x (mem_append_right _ hx)
  obtain @⟨decls, s1, s2, s3, _, c, declare, ports, hand, rename, report⟩ := hclosed
  rw [htop] at declare ports hand ⊢
  -- up to the signature
  obtain ⟨hown1, hreporter1, hstays1, hdecls⟩ := of_ends (declareAliases_ok _ _ _ _) declare
  obtain ⟨hstays2, hreporter2, -, hsignature⟩ := of_done (addPorts_ok _ _ _) ports
  have hdeclared : Stays D.entity (fun _ => False) D.fresh s.ctx s1.ctx := hstays1 fun a ha _ =>
    (hf.aliases a ha).2.made
  have hbefore : Stays D.entity (fun _ => False) D.fresh s.ctx c := hdeclared.trans (hstays2 hsymbol)
  have hwide : ∀ {c c'}, Stays D.entity (fun _ => False) D.fresh c c' → Stays D.entity D.known D.value c c' := fun h =>
    D.widen h fun _ h => h.elim
  have hsince := h.since.trans (hwide hbefore)
  have hportsOf : portsOf s1.ctx.symbols f.aliases = portsOf D.table f.aliases := filter_congr fun a ha => by
    rw [isConst_since (h.since.trans (hwide hdeclared)) (hvisible _ (hf.aliases a ha).1)]
  rw [hportsOf] at hand hsignature
  obtain ⟨hown3, hreporter3, hstays3⟩ := of_done (renameChildren_ok _ _ _) rename
  have hafter : Stays D.entity (fun _ => False) D.fresh s2.ctx s3.ctx := hstays3 hnested
  obtain ⟨r, users, hreport, hopen, hempty⟩ := reportConflicts_ok s3
  cases hreport.symm.trans report
  have hlast : ∀ r, Stays D.entity (fun _ => False) D.fresh s2.ctx { s3.ctx with reporter := r } := fun r =>
    ⟨hafter.size, hafter.entry, hafter.separator, hafter.checkTrees⟩
  refine ⟨⟨decls, c, hdecls, hbefore, rfl⟩, ?_⟩
  cases hF with
  | nil =>
    have hsize : ¬2 ≤ s1.own.frames.size := by simp [size, hown1, hframes]
    rw [if_neg hsize] at hand
    cases hand
    have hitems : s3.own.frames.items = [] := by
      rw [hown3]
      change s1.own.frames.items.tail = _
      rw [hown1, hframes]
      rfl
    obtain ⟨rfl, hle, hsingle⟩ := hempty hitems
    have hcount : s3.ctx.reporter = s.ctx.reporter := hreporter3.trans (hreporter2.trans hreporter1)
    have husers : s3.own.users = s.own.users := by
      rw [hown3]
      change s1.own.users = _
      rw [hown1]
    rw [hcount] at hle hsingle
    rw [husers] at hsingle
    have hown : ({ s3.own with users := [] } : State) = {} :=
      congrArg (fun items => State.mk ⟨items⟩ []) hitems
    refine ⟨.outermost hown (hbefore.trans (hlast r)) hle hsingle, h.since.trans (hwide (hbefore.trans (hlast r))), ?_, hvisible⟩
    rw [hown]
    exact .nil
  | @cons p F own' E hp hF =>
    have hsize : 2 ≤ s1.own.frames.size := by simp [size, hown1, hframes]
    rw [if_pos hsize] at hand
    have hshared : ∀ a ∈ portsOf D.table f.aliases, D.shared a.1 ∧ (a.1 ∈ own' ∨ a.1 ∈ E.flatten) ∧
        (D.table.kind a.1).isConst = false ∧ Alias D c a.1 a.2 := by
      intro a ha
      obtain ⟨ha, hconst⟩ := mem_filter.mp ha
      obtain ⟨houter, halias⟩ := hf.aliases a ha
      exact ⟨hvisible _ houter, mem_append.mp houter, by simpa using hconst, halias.later hbefore⟩
    obtain ⟨_, p', hforM, hframes2, husers2, hreporter2', hhanded, hp'⟩ := obliges_handed e.symbol (s := { s1 with ctx := c })
      (by rw [hown1, hframes]) hsince (hp.later hbefore) hshared
    cases hforM.symm.trans hand
    have hitems : s3.own.frames.items = p' :: F := by
      rw [hown3]
      change s2.own.frames.items.tail = _
      rw [hframes2]
      rfl
    obtain ⟨rfl, rfl⟩ := hopen (by rw [hitems]; simp)
    have hwithin := hhanded.within hbefore (hlast s3.ctx.reporter)
      (fun a ha => ⟨(hshared a ha).1, h.since.listed (D.old (hshared a ha).1)⟩) fun a ha => (hp'.aliases a ha).2.listed
    have hstays : Stays D.entity D.known D.value s.ctx { s3.ctx with reporter := s3.ctx.reporter } :=
      D.widen hwithin.stays fun x hx => by
        obtain ⟨a, ha, rfl⟩ := mem_map.mp hx
        exact (D.shares (hshared a ha).1).1
    refine ⟨.inside hitems hwithin ?_ ?_ fun hlisted a ha => ?_, h.since.trans hstays, ?_, hvisible⟩
    · change s3.own.users = _
      rw [hown3]
      exact husers2.trans (congrArg State.users hown1)
    · exact hreporter3.trans (hreporter2'.trans (hreporter2.trans hreporter1))
    · have hmem := hsignature (hdeclared.listed hlisted) a.2 (mem_map_of_mem ha)
      exact ((hhanded.stays.trans (hafter.mono (fun _ h => h) (fun _ h => h.elim) fun _ _ h => h)).entry _
        (hbefore.listed hlisted)).ports _ hmem
    · rw [hitems]
      exact .cons (hp'.later hafter) (hF.later hstays)

end HdlLowering.Nesting
