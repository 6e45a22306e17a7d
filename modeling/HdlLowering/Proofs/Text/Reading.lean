import HdlLowering.Proofs.Text.Decimal
import HdlLowering.Proofs.Text.Shapes
import HdlLowering.Tree.Text
import Mathlib.Order.Filter.AtTopBot.Basic

/-!
# Reading the text of an expression

A reader by recursive descent finds the shape of a legible expression in its text, so expressions with one text have one value
(`Expr.eval_eq_of_text_eq`). The reader goes on after an expression as long as accesses follow, and these may belong to a larger
one. So what is shown is that reading a text followed by `r` gives what reading `r` with the shape already found gives. Readers
count their steps; what is said of them holds of all numbers of steps but finitely many.
-/

namespace HdlLowering

open List Expr UnaryOp Filter

variable {Γ : SymbolTable} (scope : Scope Γ)

/-! ## The reader -/

/-- The word at the front of a text, and what comes after it. -/
def word (s : List Char) : List Char × List Char := (s.takeWhile (· ∉ delimiters), s.dropWhile (· ∉ delimiters))

/-- The literal that starts with a number and goes on with a text. -/
def readLiteral (n : Int) : List Char → Option Expr
  | [] => some (.num .synthetic false n)
  | '\'' :: 's' :: 'd' :: v => some (.int .synthetic true (.ofInt n) (decimal v))
  | '\'' :: 'd' :: v => some (.int .synthetic false (.ofInt n) (decimal v))
  | _ => none

def readWord (w : List Char) : Option Expr :=
  match scope.symbols.find? (fun s => (Γ.name s).toList == w) with
  | some s => some (.ref .synthetic s)
  | none => readLiteral (decimal (w.takeWhile (· != '\''))) (w.dropWhile (· != '\''))

mutual
/-- Reads an expression at the front of a text in at most a number of steps. -/
def readExpr : Nat → List Char → Option (Expr × List Char)
  | 0, _ | _, [] => none
  | n + 1, '(' :: s => do
    let (x, ' ' :: s) ← readExpr n s | none
    let (op, ' ' :: s) := word s | none
    let (y, s) ← readExpr n s
    if op = ['?'] then
      let ' ' :: ':' :: ' ' :: s := s | none
      let (z, ')' :: s) ← readExpr n s | none
      readAccesses n (.ternary .synthetic x y z) s
    else
      let ')' :: s := s | none
      let op ← BinaryOp.known.find? (·.text.toList == op)
      readAccesses n (.binary .synthetic op x y) s
  | n + 1, '\x7b' :: s => do
    match ← readList n s with
    | (ps, '\x7d' :: s) => readAccesses n (.cat .synthetic ps) s
    | ([k], '\x7b' :: s) =>
      let (x, '\x7d' :: '\x7d' :: s) ← readExpr n s | none
      readAccesses n (.rep .synthetic k x) s
    | _ => none
  | n + 1, c :: s =>
    if c ∈ delimiters then none
    else match ofChar? c with
      | some op => do
        let (x, s) ← readExpr n s
        some (.unary .synthetic op x, s)
      | none => do
        let e ← readWord scope (word (c :: s)).1
        readAccesses n e (word (c :: s)).2

/-- Reads what follows an expression: indices, slices, selections and calls. -/
def readAccesses : Nat → Expr → List Char → Option (Expr × List Char)
  | n + 1, e, '[' :: s => do
    match ← readExpr n s with
    | (i, ']' :: s) => readAccesses n (.index .synthetic e i) s
    | (m, ':' :: s) =>
      let (l, ']' :: s) ← readExpr n s | none
      readAccesses n (.slice .synthetic e m l) s
    | _ => none
  | n + 1, e, '.' :: s => readAccesses n (.select .synthetic e (String.ofList (word s).1)) (word s).2
  | n + 1, e, '(' :: s => do
    let (as, ')' :: s) ← readList n s | none
    readAccesses n (.call .synthetic e as) s
  | _, e, s => some (e, s)

def readList : Nat → List Char → Option (List Expr × List Char)
  | 0, _ => none
  | _, ')' :: s => some ([], ')' :: s)
  | _, '\x7d' :: s => some ([], '\x7d' :: s)
  | n + 1, s => do
    match ← readExpr n s with
    | (e, ',' :: ' ' :: s) => do
      let (es, s) ← readList n s
      some (e :: es, s)
    | (e, s) => some ([e], s)
end

theorem eventually_of_next {P Q : Nat → Prop} (h : ∀ᶠ n in atTop, P n) (hnext : ∀ n, P n → Q (n + 1)) : ∀ᶠ n in atTop, Q n := by
  obtain ⟨k, hk⟩ := eventually_atTop.mp h
  refine eventually_atTop.mpr ⟨k + 1, fun n hn => ?_⟩
  obtain ⟨n, rfl⟩ := Nat.exists_eq_add_of_le' (Nat.le_of_add_left_le hn)
  exact hnext n (hk n (by omega))

variable {scope} {w r : List Char} {c : Char} {e : Expr} {n : Nat}

/-! ## Words and literals -/

theorem takeWhile_append_stop {p : Char → Bool} (hw : ∀ c ∈ w, p c = true) (hr : ∀ c ∈ r.head?, p c = false) :
    (w ++ r).takeWhile p = w ∧ (w ++ r).dropWhile p = r := by
  rw [takeWhile_append_of_pos hw, dropWhile_append_of_pos hw]
  cases r with
  | nil => exact ⟨append_nil w, rfl⟩
  | cons c r => simp [hr c rfl]

theorem not_delimiter_of_isDigit (hc : c.isDigit = true) : c ∉ delimiters := by
  have hall : delimiters.all (! ·.isDigit) = true := by decide
  intro h
  simpa [hc] using all_eq_true.mp hall c h

theorem ofChar?_of_isDigit (hc : c.isDigit = true) : ofChar? c = none := by
  have hall : known.all (fun op => op.text.toList.all (! ·.isDigit)) = true := by decide
  refine find?_eq_none.mpr fun op hop h => ?_
  simpa [eq_of_beq h, hc] using all_eq_true.mp hall op hop

theorem not_delimiter_repr {v : Int} : ∀ c ∈ v.repr.toList, c ∉ delimiters := by
  by_cases hv : 0 ≤ v
  · rw [toList_repr hv]
    exact fun c hc => not_delimiter_of_isDigit (isDigit_toDigits c hc)
  · rw [toList_repr_neg (by omega), toList_repr (by omega)]
    exact forall_mem_cons.mpr ⟨by decide, fun c hc => not_delimiter_of_isDigit (isDigit_toDigits c hc)⟩

/-- A text before which a word ends. -/
def Stopped (r : List Char) : Prop := ∀ c ∈ r.head?, c ∈ delimiters

theorem stopped_cons (hc : c ∈ delimiters) : Stopped (c :: r) := fun _ hd => Option.some.inj hd ▸ hc

theorem word_append (hw : ∀ c ∈ w, c ∉ delimiters) (hr : Stopped r) : word (w ++ r) = (w, r) := by
  have hsplit := takeWhile_append_stop (p := (· ∉ delimiters)) (r := r) (fun c hc => decide_eq_true (hw c hc))
    (fun c hc => decide_eq_false (not_not.mpr (hr c hc)))
  rw [word, hsplit.1, hsplit.2]

theorem read_cons (hc : c ∉ delimiters) : readExpr scope (n + 1) (c :: w) =
    match ofChar? c with
    | some op => (readExpr scope n w).bind fun (x, s) => some (.unary .synthetic op x, s)
    | none => (readWord scope (word (c :: w)).1).bind (readAccesses scope n · (word (c :: w)).2) := by
  rw [readExpr]
  · rw [if_neg hc]
    rfl
  all_goals
    rintro rfl
    exact hc (by decide)

theorem read_word (hw : ∀ c ∈ w, c ∉ delimiters) (hop : ∃ c ∈ w.head?, ofChar? c = none)
    (he : readWord scope w = some e) (hr : Stopped r) : readExpr scope (n + 1) (w ++ r) = readAccesses scope n e r := by
  obtain ⟨c, hc, hop⟩ := hop
  obtain ⟨t, rfl⟩ := head?_eq_some_iff.mp hc
  have hsplit := word_append hw hr
  rw [cons_append] at hsplit ⊢
  rw [read_cons (hw c (.head _)), hop, hsplit, he]
  rfl

theorem readWord_name {s : Symbol} (hs : s ∈ scope.symbols) : readWord scope (Γ.name s).toList = some (.ref .synthetic s) := by
  unfold readWord
  split
  · next t ht =>
    have hname := find?_some ht
    rw [scope.distinct t (mem_of_find?_eq_some ht) s hs (String.toList_injective (eq_of_beq hname))]
  · next h => exact absurd (beq_self_eq_true _) (find?_eq_none.mp h s hs)

theorem read_literal {v : Int} (hv : 0 ≤ v) {q : List Char} (hq : ∀ c ∈ q, c ∉ delimiters)
    (hhead : ∀ c ∈ q.head?, c = '\'') (he : readLiteral v q = some e) (hr : Stopped r) :
    readExpr scope (n + 1) (v.repr.toList ++ (q ++ r)) = readAccesses scope n e r := by
  have hdigits : ∀ c ∈ v.repr.toList, c.isDigit = true := toList_repr hv ▸ isDigit_toDigits
  obtain ⟨c, t, hct⟩ := exists_cons_of_ne_nil (toList_repr hv ▸ Nat.toDigits_ne_nil : v.repr.toList ≠ [])
  have hc : c.isDigit = true := hdigits c (hct ▸ .head _)
  have hsplit := takeWhile_append_stop (p := (· != '\'')) (r := q)
    (fun c hc => bne_iff_ne.mpr fun h => absurd (h ▸ hdigits c hc) (by decide)) (fun c hc => by simp [hhead c hc])
  rw [← append_assoc]
  refine read_word (forall_mem_append.mpr ⟨not_delimiter_repr, hq⟩) ⟨c, by rw [hct]; rfl, ofChar?_of_isDigit hc⟩ ?_ hr
  rw [readWord, find?_eq_none.mpr, hsplit.1, hsplit.2, decimal_repr]
  · exact he
  · intro s hs hname
    obtain ⟨-, d, hd, hdigit, -⟩ := scope.identifiers s hs
    rw [eq_of_beq hname, hct] at hd
    simp_all

theorem read_digits {v : Int} (hv : 0 ≤ v) (hr : Stopped r) :
    readExpr scope (n + 1) (v.repr.toList ++ r) = readAccesses scope n (.num .synthetic false v) r :=
  read_literal (q := []) hv (forall_mem_nil _) (by simp) rfl hr

/-! ## Expressions -/

/-- Delimiters that end an expression. -/
def closing : List Char := [' ', ')', ']', '\x7b', '\x7d', ',', ':']

def Ended (r : List Char) : Prop := ∀ c ∈ r.head?, c ∈ closing

theorem Ended.stopped (h : Ended r) : Stopped r := fun c hc => by
  have hall : closing.all (· ∈ delimiters) = true := by decide
  exact of_decide_eq_true (all_eq_true.mp hall c (h c hc))

theorem readAccesses_ended (h : Ended r) : readAccesses scope n e r = some (e, r) := by
  rw [readAccesses.eq_def]
  split
  · exact absurd (h _ rfl) (by decide)
  · exact absurd (h _ rfl) (by decide)
  · exact absurd (h _ rfl) (by decide)
  · rfl

theorem read_unary {op : UnaryOp} (hop : op ∈ known) (h : readExpr scope n w = some (e, r)) :
    readExpr scope (n + 1) (op.text.toList ++ w) = some (.unary .synthetic op e, r) := by
  have hchar : ∃ c, op.text.toList = [c] ∧ c ∉ delimiters ∧ ofChar? c = some op := by
    cases op with
    | other => simp [known] at hop
    | _ => exact ⟨_, rfl, by decide, by decide⟩
  obtain ⟨c, htext, hc, hof⟩ := hchar
  rw [htext, singleton_append, read_cons hc, hof, h]
  rfl

/-- The text of an expression is read as its shape, and the reading goes on after it. -/
def Expr.Readable (scope : Scope Γ) (e : Expr) : Prop := ∀ r p, Stopped r → (e.prefixed = true → Ended r) →
  (∀ᶠ n in atTop, readAccesses scope n e.shape r = some p) → ∀ᶠ n in atTop, readExpr scope n ((e.text Γ).toList ++ r) = some p

theorem Expr.Readable.ended (h : e.Readable scope) (hr : Ended r) :
    ∀ᶠ n in atTop, readExpr scope n ((e.text Γ).toList ++ r) = some (e.shape, r) :=
  h r _ hr.stopped (fun _ => hr) (.of_forall fun _ => readAccesses_ended hr)

theorem Expr.Readable.closed (h : e.Readable scope) (c : Char) (r : List Char) (hc : c ∈ closing) :
    ∀ᶠ n in atTop, readExpr scope n ((e.text Γ).toList ++ c :: r) = some (e.shape, c :: r) :=
  h.ended fun _ hd => Option.some.inj hd ▸ hc

theorem Expr.Readable.accessed (h : e.Readable scope) (he : e.prefixed = false) (hc : c ∈ delimiters)
    {p : Expr × List Char} (hp : ∀ᶠ n in atTop, readAccesses scope n e.shape (c :: r) = some p) :
    ∀ᶠ n in atTop, readExpr scope n ((e.text Γ).toList ++ c :: r) = some p :=
  h _ p (stopped_cons hc) (he ▸ nofun) hp

theorem BinaryOp.known_word {op : BinaryOp} (hop : op ∈ known) : (∀ c ∈ op.text.toList, c ∉ delimiters) ∧
    op.text.toList ≠ ['?'] ∧ known.find? (·.text.toList == op.text.toList) = some op := by
  have hall : ∀ op ∈ known, op.text.toList.all (· ∉ delimiters) = true ∧ op.text.toList ≠ ['?'] ∧
      known.find? (·.text.toList == op.text.toList) = some op := by decide
  obtain ⟨hword, hrest⟩ := hall op hop
  exact ⟨fun c hc => of_decide_eq_true (all_eq_true.mp hword c hc), hrest⟩

theorem readList_of_read {p : Expr × List Char} : readExpr scope n w = some p → readList scope (n + 1) w =
    match p with
    | (e, ',' :: ' ' :: s) => (readList scope n s).bind fun (es, s) => some (e :: es, s)
    | (e, s) => some ([e], s) := by
  intro h
  rw [readList]
  · rw [h]
    rfl
  all_goals
    rintro s rfl
    cases n <;> simp [readExpr, delimiters] at h

theorem readList_texts (hc : c = ')' ∨ c = '\x7d') : ∀ {es : List Expr}, (∀ e ∈ es, e.Readable scope) →
    ∀ᶠ n in atTop, readList scope n ((", ".intercalate (texts Γ es)).toList ++ c :: r) = some (shapes es, c :: r)
  | [], _ => eventually_of_next (eventually_ge_atTop 0) fun _ _ => by rcases hc with rfl | rfl <;> rfl
  | [e], h => by
    refine eventually_of_next ((h e (.head _)).closed c r (by rcases hc with rfl | rfl <;> decide)) fun n hn => ?_
    rcases hc with rfl | rfl <;> exact readList_of_read hn
  | e :: e' :: es, h => by
    rw [forall_mem_cons] at h
    rw [texts, texts, String.intercalate_cons_cons, ← texts]
    simp only [String.toList_append, String.reduceToList, append_assoc, cons_append, nil_append]
    have he := h.1.closed ',' (' ' :: ((", ".intercalate (texts Γ (e' :: es))).toList ++ c :: r)) (by decide)
    refine eventually_of_next (he.and (readList_texts hc h.2)) fun n h => ?_
    obtain ⟨he, hes⟩ := h
    rw [readList_of_read he]
    simp only [hes]
    rfl

/-- The text of a legible expression reads as its shape. -/
theorem Expr.readable (h : e.Legible scope) : e.Readable scope := by
  induction e using of_operands with
  | h e ih =>
  replace ih (x) (hx : x ∈ e.operands) : x.Readable scope := ih x hx (h.operand hx)
  have hclear := h.clear
  intro r p hr hend hp
  have hprefixed (he : e.prefixed = true) : p = (e.shape, r) := by
    obtain ⟨n, hn⟩ := hp.exists
    exact Option.some.inj (hn.symm.trans (readAccesses_ended (hend he)))
  cases e <;> simp only [text, shape, String.toList_append, String.reduceToList, append_assoc, cons_append, nil_append,
    Int.toString_eq_repr] at hp ⊢
  case ref l s =>
    obtain ⟨hword, c, hc, -, hop⟩ := scope.identifiers s hclear
    exact eventually_of_next hp fun n hn => (read_word hword ⟨c, hc, hop⟩ (readWord_name hclear) hr).trans hn
  case num l s v =>
    by_cases hv : v < 0
    · have hprefix : prefixed (.num l s v) = true := decide_eq_true hv
      have hread : ∀ᶠ n in atTop, readExpr scope n ((-v).repr.toList ++ r) = some (.num .synthetic false (-v), r) :=
        eventually_of_next (eventually_ge_atTop 0) fun n _ =>
          (read_digits (by omega) hr).trans (readAccesses_ended (hend hprefix))
      rw [hprefixed hprefix, toList_repr_neg hv, shape, number, if_pos hv]
      exact eventually_of_next hread fun n hn => read_unary (by decide : .minus ∈ UnaryOp.known) hn
    · rw [number, if_neg hv] at hp
      exact eventually_of_next hp fun n hn => (read_digits (by omega) hr).trans hn
  case int l sg w v =>
    refine eventually_of_next hp fun n hn => .trans ?_ hn
    cases sg
    all_goals
      rw [← append_assoc _ v.repr.toList]
      refine read_literal (Int64.le_iff_toInt_le.mp hclear) (forall_mem_append.mpr ⟨?_, not_delimiter_repr⟩) (by simp) ?_ hr
      · simp [delimiters]
      · simp [readLiteral, decimal_repr]
  case unary l op x =>
    rw [hprefixed rfl]
    exact eventually_of_next ((ih x (.head _)).ended (hend rfl)) fun n hn => read_unary hclear hn
  case binary l op x y =>
    obtain ⟨hword, hne, hfind⟩ := BinaryOp.known_word hclear
    have hx := (ih x (.head _)).closed ' ' (op.text.toList ++ ' ' :: ((y.text Γ).toList ++ ')' :: r)) (by decide)
    have hy := (ih y (.tail _ (.head _))).closed ')' r (by decide)
    refine eventually_of_next (hx.and (hy.and hp)) fun n h => ?_
    obtain ⟨hx, hy, hn⟩ := h
    rw [readExpr, hx]
    simp [word_append hword (stopped_cons (c := ' ') (by decide)), hy, hne, hfind, hn]
  case ternary l c x y =>
    let rest := (y.text Γ).toList ++ ')' :: r
    have hword : word ('?' :: ' ' :: ((x.text Γ).toList ++ ' ' :: ':' :: ' ' :: rest)) = _ :=
      word_append (w := ['?']) (by simp [delimiters]) (stopped_cons (by decide))
    have hc := (ih c (.head _)).closed ' ' ('?' :: ' ' :: ((x.text Γ).toList ++ ' ' :: ':' :: ' ' :: rest)) (by decide)
    have hx := (ih x (.tail _ (.head _))).closed ' ' (':' :: ' ' :: rest) (by decide)
    have hy : ∀ᶠ n in atTop, readExpr scope n rest = _ := (ih y (.tail _ (.tail _ (.head _)))).closed ')' r (by decide)
    refine eventually_of_next (hc.and (hx.and (hy.and hp))) fun n h => ?_
    obtain ⟨hc, hx, hy, hn⟩ := h
    rw [readExpr, hc]
    simp [hword, hx, hy, hn]
  case cat l ps =>
    rw [operands] at ih
    refine eventually_of_next ((readList_texts (r := r) (.inr rfl) ih).and hp) fun n h => ?_
    obtain ⟨hps, hn⟩ := h
    rw [readExpr, hps]
    exact hn
  case rep l k x =>
    have hk := (ih k (.head _)).closed '\x7b' ((x.text Γ).toList ++ '\x7d' :: '\x7d' :: r) (by decide)
    have hx := (ih x (.tail _ (.head _))).closed '\x7d' ('\x7d' :: r) (by decide)
    have hlist := eventually_of_next (Q := fun n => readList scope n _ = some _) hk fun n hn => readList_of_read hn
    refine eventually_of_next (hlist.and (hx.and hp)) fun n h => ?_
    obtain ⟨hlist, hx, hn⟩ := h
    rw [readExpr, hlist]
    simp [hx, hn]
  case index l x i =>
    have hi := (ih i (.tail _ (.head _))).closed ']' r (by decide)
    refine (ih x (.head _)).accessed hclear (by decide) (eventually_of_next (hi.and hp) fun n h => ?_)
    obtain ⟨hi, hn⟩ := h
    rw [readAccesses, hi]
    exact hn
  case slice l x m k =>
    have hm := (ih m (.tail _ (.head _))).closed ':' ((k.text Γ).toList ++ ']' :: r) (by decide)
    have hk := (ih k (.tail _ (.tail _ (.head _)))).closed ']' r (by decide)
    refine (ih x (.head _)).accessed hclear.1 (by decide) (eventually_of_next (hm.and (hk.and hp)) fun n h => ?_)
    obtain ⟨hm, hk, hn⟩ := h
    rw [readAccesses, hm]
    simp [hk, hn]
  case select l x f =>
    refine (ih x (.head _)).accessed hclear.1 (by decide) (eventually_of_next hp fun n hn => ?_)
    rw [readAccesses, word_append hclear.2.1 hr, String.ofList_toList]
    exact hn
  case call l f as =>
    have has := readList_texts (r := r) (.inl rfl) fun p hp => ih p (.tail _ hp)
    refine (ih f (.head _)).accessed hclear (by decide) (eventually_of_next (has.and hp) fun n h => ?_)
    obtain ⟨has, hn⟩ := h
    rw [readAccesses, has]
    exact hn

/-- Where the text of expressions shows how they are built, expressions with one text have one value. -/
theorem Expr.eval_eq_of_text_eq {e e' : Expr} (h : e.Legible scope) (h' : e'.Legible scope) (htext : e.text Γ = e'.text Γ)
    (b : Bindings) : e.eval Γ b = e'.eval Γ b := by
  have hend : Ended [] := fun _ hc => nomatch hc
  obtain ⟨n, hn, hn'⟩ := (((readable h).ended hend).and ((readable h').ended hend)).exists
  rw [htext, hn', Option.some.injEq, Prod.mk.injEq] at hn
  rw [← eval_shape h, ← eval_shape h', hn.1]

namespace SignedOperand

def table : SymbolTable := ⟨#[.value 1 "x" (.uint 8), .value 2 "y" (.sint 8)]⟩

def names : Scope table where
  symbols := [⟨0⟩, ⟨1⟩]
  identifiers := by
    have hletter {s : String} {c : Char} (hs : s.toList = [c]) (hc : c ∉ delimiters) (hd : c.isDigit = false)
        (hop : ofChar? c = none) : Identifier s :=
      ⟨by simpa [hs] using hc, c, by rw [hs]; rfl, hd, hop⟩
    simp only [forall_mem_cons, not_mem_nil, false_implies, implies_true, and_true]
    exact ⟨hletter (c := 'x') rfl (by decide) (by decide) (by decide), hletter (c := 'y') rfl (by decide) (by decide) (by decide)⟩
  distinct := by decide

def x : Expr := .ref {} ⟨0⟩

def y : Expr := .ref {} ⟨1⟩

def known : Bindings := ⟨[(⟨0⟩, 1), (⟨1⟩, -1)]⟩

def lit (v : Int) : Expr := .num {} false v

def negated (e : Expr) : Expr := .unary {} .minus e

def bit (e : Expr) : Expr := .index {} e (lit 1)

def chosen (m l : Expr) : Expr := .ternary {} x y (.slice {} x m l)

def sum (e i : Expr) : Expr := .binary {} .add e (.index {} x i)

/-- The bit of a negated byte and the negated bit of a byte have one text; so have slices with a negative literal and with the
negation of a literal, of which only the first has a width. -/
theorem same_text_differs : text table (negated (bit x)) = text table (bit (negated x)) ∧
    eval table known (negated (bit x)) = some 0 ∧ eval table known (bit (negated x)) = some 1 ∧
    text table (chosen (lit (-1)) (lit (-20))) = text table (chosen (negated (lit 1)) (negated (lit 20))) ∧
    eval table known (chosen (lit (-1)) (lit (-20))) = some 1048575 ∧
    eval table known (chosen (negated (lit 1)) (negated (lit 20))) = some 255 := by
  decide

/-- The sum of a negative literal and a bit, and one of the negation of a literal and the bit with a signed index. -/
theorem same_text_agrees : Legible names (sum (lit (-5)) (lit 1)) ∧ Legible names (sum (negated (lit 5)) (.num {} true 1)) ∧
    eval table known (sum (lit (-5)) (lit 1)) = eval table known (sum (negated (lit 5)) (.num {} true 1)) := by
  have h : Legible names (sum (lit (-5)) (lit 1)) ∧ Legible names (sum (negated (lit 5)) (.num {} true 1)) := by
    simp [Legible, subterms, Clear, sum, x, lit, negated, UnaryOp.known, BinaryOp.known, prefixed, negative, names]
  exact ⟨h.1, h.2, Expr.eval_eq_of_text_eq h.1 h.2 (by decide) known⟩

end SignedOperand

end HdlLowering
