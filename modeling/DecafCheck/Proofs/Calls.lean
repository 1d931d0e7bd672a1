import DecafCheck.Proofs.Overrides
/-!
# Calls check their arguments

A call names its callee: the name looked up from the call when it has no base, or, on a base whose
type names a class or interface, the binding of the name in the scope of that class or interface
(`Tree.CallsIn`). A callee that is a function is checked against the call. When the numbers of
formals and arguments differ, one count mismatch is reported at the name. Otherwise every argument
is checked, and each one whose formal is a variable of a type the argument's type is not compatible
with at the call is reported where it stands, numbered from 1: one report per failing position,
in ascending order (`Tree.ArgReportsIn`). The call has the function's return type when nothing is
reported, and the error type otherwise (`Tree.CallChecked`).

`Analysis.Judges` says what a computation answers and what it reports besides the faults of
preparation, in terms of the tables its run ends with, as `Decides` does for answers and `Flags`
for reports. The main statement is `call_checks_arguments`.
-/

namespace DecafCheck

namespace Tree

variable (t : Tree) (S : Std.TreeMap Nat Scope)

/-- In the table `S`, the call at `n` of the name `x`, on a base of type `base` (none for a call
without base), calls function `f`: the name looked up deep from `n` finds `f`, or the base's type
names at `n` a class or interface whose scope binds the name to `f`. -/
def CallsIn (n : Nat) (x : String) (base : Option Ty) (f : Nat) : Prop :=
  (t.kindAt f).fn?.isSome = true ∧
    match base with
    | none => t.FindsIn S n x (some f)
    | some (.named id) => ∃ d, t.NamesIn S n id.name d ∧ (S[d]?).bind (·.lookup x) = some f
    | some _ => False

/-- In the table `S`, argument `i` (counted from 0) of a call of `name` at `n` fails its formal,
and `d` reports it: the formal is a variable whose type the argument's type is not compatible with
at `n`; the report stands at the argument and numbers it from `first`. -/
def ArgFailsIn (n : Nat) (name : String) (first : Nat) (formals : List Nat)
    (args : List (Nat × Ty)) (i : Nat) (d : Diagnostic) : Prop :=
  ∃ x a given v, formals[i]? = some x ∧ args[i]? = some (a, given) ∧
    (t.kindAt x).var? = some v ∧ ¬ t.CompatibleIn S n given v.ty ∧
    d = ⟨t.spanAt a, .argMismatch name (first + i) given v.ty⟩

/-- In the table `S`, `ds` reports the arguments of a call of `name` at `n` that fail their
formals: one report for each failing position, in ascending order. -/
def ArgReportsIn (n : Nat) (name : String) (first : Nat) (formals : List Nat)
    (args : List (Nat × Ty)) (ds : List Diagnostic) : Prop :=
  ∃ is : List Nat, is.Pairwise (· < ·) ∧
    (∀ i, i ∈ is ↔ ∃ d, t.ArgFailsIn S n name first formals args i d) ∧
    List.Forall₂ (t.ArgFailsIn S n name first formals args) is ds

/-- In the table `S`, `ds` and `ty` are what a call of `name` at `n` with arguments `args`, of a
function declared as `fd`, reports and answers: one count mismatch at the name when the numbers of
formals and arguments differ, and otherwise one report for each argument that fails its formal, in
order; the return type when nothing is reported, and otherwise the error type. -/
def CallChecked (n : Nat) (name : Ident) (fd : FunDecl) (args : List (Nat × Ty))
    (ds : List Diagnostic) (ty : Ty) : Prop :=
  (fd.formals.length ≠ args.length →
    ds = [⟨name.span, .argCountMismatch name.name fd.formals.length args.length⟩]) ∧
  (fd.formals.length = args.length → t.ArgReportsIn S n name.name 1 fd.formals args ds) ∧
  ty = if ds = [] then fd.ret else .error

variable {t S} {n first x a : Nat} {name : String} {formals : List Nat} {args : List (Nat × Ty)}
  {given : Ty} {d : Diagnostic}

/-- A base whose type names nothing has no method to call. -/
lemma not_callsIn_of_not_named {ty : Ty} (h : ∀ id, ty ≠ .named id) {f : Nat} :
    ¬ t.CallsIn S n name (some ty) f := by
  intro hc
  cases ty with
  | named id => exact h id rfl
  | _ => exact hc.2

/-- Past the first position, arguments fail as the rest of them do, numbered from one more. -/
lemma argFailsIn_succ {i : Nat} :
    t.ArgFailsIn S n name first (x :: formals) ((a, given) :: args) (i + 1) d ↔
      t.ArgFailsIn S n name (first + 1) formals args i d := by
  unfold ArgFailsIn
  rw [List.getElem?_cons_succ, List.getElem?_cons_succ, Nat.add_assoc, Nat.add_comm 1 i]

/-- The first argument fails exactly when its formal is a variable of a type it is not compatible
with. -/
lemma argFailsIn_zero :
    t.ArgFailsIn S n name first (x :: formals) ((a, given) :: args) 0 d ↔
      ∃ v, (t.kindAt x).var? = some v ∧ ¬ t.CompatibleIn S n given v.ty ∧
        d = ⟨t.spanAt a, .argMismatch name first given v.ty⟩ := by
  unfold ArgFailsIn
  simp

/-- Without formals or without arguments nothing is reported. -/
lemma argReportsIn_nil (h : formals = [] ∨ args = []) :
    t.ArgReportsIn S n name first formals args [] := by
  refine ⟨[], List.Pairwise.nil, fun i => ?_, List.Forall₂.nil⟩
  simp only [List.not_mem_nil, false_iff, not_exists]
  rintro d ⟨x, a, given, v, hx, ha, -⟩
  rcases h with rfl | rfl
  · simp at hx
  · simp at ha

/-- The reports for a call are those for its first argument, then those for the rest. -/
lemma argReportsIn_cons (here : List Diagnostic) {ds : List Diagnostic}
    (hhere :
      (here = [] ∧ ∀ d, ¬ t.ArgFailsIn S n name first (x :: formals) ((a, given) :: args) 0 d) ∨
        ∃ d, t.ArgFailsIn S n name first (x :: formals) ((a, given) :: args) 0 d ∧ here = [d])
    (hrest : t.ArgReportsIn S n name (first + 1) formals args ds) :
    t.ArgReportsIn S n name first (x :: formals) ((a, given) :: args) (here ++ ds) := by
  obtain ⟨is, hsorted, hmem, hfor⟩ := hrest
  -- the later positions of the rest are the positions after the first
  have hlater : List.Forall₂ (t.ArgFailsIn S n name first (x :: formals) ((a, given) :: args))
      (is.map (· + 1)) ds :=
    List.forall₂_map_left_iff.2 (hfor.imp fun _ _ h => argFailsIn_succ.2 h)
  have hsucc : (is.map (· + 1)).Pairwise (· < ·) :=
    List.pairwise_map.2 (hsorted.imp fun h => Nat.succ_lt_succ h)
  have hmem' : ∀ i, i + 1 ∈ is.map (· + 1) ↔
      ∃ d, t.ArgFailsIn S n name first (x :: formals) ((a, given) :: args) (i + 1) d := by
    intro i
    simp only [List.mem_map, Nat.add_right_cancel_iff, exists_eq_right, argFailsIn_succ]
    exact hmem i
  have hzero : 0 ∉ is.map (· + 1) := by simp
  rcases hhere with ⟨rfl, hnone⟩ | ⟨d₀, h₀, rfl⟩
  · refine ⟨is.map (· + 1), hsucc, fun i => ?_, hlater⟩
    cases i with
    | zero => exact iff_of_false hzero fun h => h.elim hnone
    | succ i => exact hmem' i
  · refine ⟨0 :: is.map (· + 1), List.pairwise_cons.2 ⟨fun j hj => ?_, hsucc⟩, fun i => ?_,
      List.Forall₂.cons h₀ hlater⟩
    · obtain ⟨k, -, rfl⟩ := List.mem_map.1 hj
      omega
    · cases i with
      | zero => exact iff_of_true (List.mem_cons_self ..) ⟨d₀, h₀⟩
      | succ i =>
        rw [List.mem_cons, ← hmem' i]
        simp

end Tree

namespace Memo

/-- `m'` is well kept when `m` is. -/
def StaysWellKept (t : Tree) (m m' : Memo) : Prop := m.WellKept t → m'.WellKept t

instance (t : Tree) : IsPreorder Memo (StaysWellKept t) where
  refl _ := id
  trans _ _ _ h₁ h₂ := h₂ ∘ h₁

end Memo

namespace Analysis

variable {t : Tree} {α β : Type}

/-- Every run of `c` from a well-kept memory ends in a well-kept memory grown from it, and its
answer and what it reports besides the faults of preparation are related by `Q` to the tables of
every memory grown from its end. -/
def Judges (t : Tree) (c : AnalysisM α)
    (Q : α → List Diagnostic → Std.TreeMap Nat Scope → Prop) : Prop :=
  Spec c fun m a m' ds => m.WellKept t →
    m'.WellKept t ∧ m.Grown t m' ∧ ∀ m'', m'.Grown t m'' → Q a (ruleReports ds) m''.scopes

namespace Judges

variable {c : AnalysisM α} {f : α → AnalysisM β}
  {Q Q' : α → List Diagnostic → Std.TreeMap Nat Scope → Prop}
  {R : β → List Diagnostic → Std.TreeMap Nat Scope → Prop}

lemma pure {a : α} (h : ∀ S, Q a [] S) : Judges t (pure a : AnalysisM α) Q :=
  fun m => ⟨a, m, [], Runs.pure a m, fun hw => ⟨hw, Memo.Grown.refl t m, fun _ _ => h _⟩⟩

lemma mono (h : Judges t c Q) (hQ : ∀ a ds S, Q a ds S → Q' a ds S) : Judges t c Q' :=
  Spec.mono h fun _ _ _ _ hq hw => (hq hw).imp_right fun h' => h'.imp_right fun h'' m'' hg =>
    hQ _ _ _ (h'' m'' hg)

/-- A lookup reports no fault of a rule, and answers what it decides. -/
lemma of_decides {P : α → Std.TreeMap Nat Scope → Prop} (hc : Decides t c P) (hl : Lookup t c) :
    Judges t c fun a ds S => P a S ∧ ds = [] := by
  refine (hc.and (hl.mono fun _ _ _ _ h => h.prepares.faults) fun _ _ _ _ _ _ h => h).mono ?_
  intro m a m' ds h hw
  obtain ⟨hq, hfaults⟩ := h
  obtain ⟨hw', hg, hP⟩ := hq hw
  exact ⟨hw', hg, fun m'' hg'' => ⟨hP m'' hg'', ruleReports_eq_nil hfaults⟩⟩

/-- Sequencing: the reports of the two parts, one after the other. -/
lemma bind {K : α → β → List Diagnostic → Std.TreeMap Nat Scope → Prop} (hc : Judges t c Q)
    (hf : ∀ a, Judges t (f a) (K a))
    (hQ : ∀ a b ds es S, Q a ds S → K a b es S → R b (ds ++ es) S) : Judges t (c >>= f) R := by
  refine Spec.bind hc hf fun m a m₁ ds b m₂ es h₁ h₂ hw => ?_
  obtain ⟨hw₁, hg₁, hq₁⟩ := h₁ hw
  obtain ⟨hw₂, hg₂, hq₂⟩ := h₂ hw₁
  refine ⟨hw₂, hg₁.trans hg₂, fun m'' hg => ?_⟩
  rw [ruleReports_append]
  exact hQ a b _ _ _ (hq₁ m'' (hg₂.trans hg)) (hq₂ m'' hg)

/-- A lookup that decides `P`, then a computation judged by `R` wherever `P` holds of the
lookup's answer. -/
lemma bind_lookup {P : α → Std.TreeMap Nat Scope → Prop} (hc : Decides t c P) (hl : Lookup t c)
    (hf : ∀ a, Judges t (f a) fun b ds S => P a S → R b ds S) : Judges t (c >>= f) R :=
  (of_decides hc hl).bind hf fun _ _ _ _ _ h₁ h₂ => by
    rw [h₁.2, List.nil_append]
    exact h₂ h₁.1

/-- Reporting a fault of a rule. -/
lemma report (span : Span) {fault : Fault} (hf : fault.fromPreparation = false) :
    Judges t (DecafCheck.report span fault) fun _ ds _ => ds = [⟨span, fault⟩] := by
  refine fun m => ⟨(), m, _, Runs.report span fault,
    fun hw => ⟨hw, Memo.Grown.refl t m, fun _ _ => ruleReports_singleton hf⟩⟩

/-- Reporting a fault of a rule, then answering. -/
lemma report_pure (span : Span) {fault : Fault} (hf : fault.fromPreparation = false) (b : β)
    (h : ∀ S, R b [⟨span, fault⟩] S) :
    Judges t (DecafCheck.report span fault >>= fun _ => Pure.pure b) R :=
  (report span hf).bind (K := fun _ a es _ => a = b ∧ es = [])
    (fun _ => Judges.pure fun _ => ⟨rfl, rfl⟩) fun _ _ ds es S hd he => by
    rw [hd, he.1, he.2, List.append_nil]
    exact h S

end Judges

/-- A shallow lookup reads the scope of its node, once prepared. -/
lemma findDecl_shallow (n : Nat) (x : String) :
    findDecl t n x false = (do prepareScope t n; preparedScope n) >>= fun s =>
      Pure.pure (s.bind (·.lookup x)) := by
  rw [findDecl, findWithin, bind_assoc]
  congr 1
  funext u
  congr 1
  funext s
  cases s.bind (·.lookup x) <;> rfl

section Consistent

variable (hcons : t.Consistent)
include hcons

/-- The arguments of a call, checked against the formals from position `first` on: the answer is
whether none fails, and what is reported is the report of each that fails, in order. -/
lemma judges_checkArgs (n : Nat) (name : Ident) (first : Nat) (formals : List Nat)
    (args : List (Nat × Ty)) :
    Judges t (checkArgs t n name first formals args) fun b ds S =>
      t.ArgReportsIn S n name.name first formals args ds ∧ (b = true ↔ ds = []) := by
  induction formals generalizing first args with
  | nil => exact Judges.pure fun _ => ⟨Tree.argReportsIn_nil (.inl rfl), iff_of_true rfl rfl⟩
  | cons x formals ih =>
    cases args with
    | nil => exact Judges.pure fun _ => ⟨Tree.argReportsIn_nil (.inr rfl), iff_of_true rfl rfl⟩
    | cons arg rest =>
      obtain ⟨a, given⟩ := arg
      -- what the first argument gives, the rest of them are checked after it
      have hrest : ∀ here : Bool, Judges t (Pure.pure here >>= fun h =>
          checkArgs t n name (first + 1) formals rest >>= fun later => Pure.pure (h && later))
          fun b ds S => t.ArgReportsIn S n name.name (first + 1) formals rest ds ∧
            (b = true ↔ here = true ∧ ds = []) := by
        intro here
        rw [pure_bind]
        refine (ih (first + 1) rest).bind (K := fun later b es _ => b = (here && later) ∧ es = [])
          (fun later => Judges.pure fun _ => ⟨rfl, rfl⟩) ?_
        intro later b ds es S h hb
        rw [hb.1, hb.2, List.append_nil, Bool.and_eq_true, h.2]
        exact ⟨h.1, Iff.rfl⟩
      rw [checkArgs]
      split
      · -- no variable formal: nothing to check here
        rename_i hv
        refine (hrest true).mono fun b ds S h => ⟨?_, by simpa using h.2⟩
        refine Tree.argReportsIn_cons [] (.inl ⟨rfl, fun d hd => ?_⟩) h.1
        obtain ⟨v, hv', -⟩ := Tree.argFailsIn_zero.1 hd
        rw [hv] at hv'
        cases hv'
      · rename_i v hv
        refine Judges.bind_lookup (decides_compatible hcons n given v.ty)
          (lookup_compatible t n given v.ty) fun r => ?_
        split
        · -- compatible: nothing to report here
          rename_i hr
          refine (hrest true).mono fun b ds S h hc => ⟨?_, by simpa using h.2⟩
          refine Tree.argReportsIn_cons [] (.inl ⟨rfl, fun d hd => ?_⟩) h.1
          obtain ⟨v', hv', hnc, -⟩ := Tree.argFailsIn_zero.1 hd
          rw [hv] at hv'
          cases hv'
          exact hnc (hc.1 hr)
        · -- incompatible: one report here, and the answer is `false`
          rename_i hr
          refine (Judges.report _ rfl).bind (fun _ => hrest false) ?_
          intro _ b ds es S hds h hc
          rw [hds]
          refine ⟨Tree.argReportsIn_cons _ (.inr ⟨_, Tree.argFailsIn_zero.2 ⟨v, hv, ?_, rfl⟩, rfl⟩)
            h.1, ?_⟩
          · exact fun hcomp => hr (hc.2 hcomp)
          · simpa using h.2

/-- A call of function `f`, declared as `fd`, with arguments `args`. -/
lemma judges_callOf {f : Nat} {fd : FunDecl} (hf : (t.kindAt f).fn? = some fd) (n : Nat)
    (name : Ident) (args : List (Nat × Ty)) :
    Judges t (callOf t n name f args) fun ty ds S => t.CallChecked S n name fd args ds ty := by
  unfold callOf
  rw [hf]
  dsimp only
  split
  · -- the numbers differ: one count mismatch, and the error type
    rename_i hlen
    have hne : fd.formals.length ≠ args.length := by simpa using hlen
    refine Judges.report_pure _ rfl _ fun _ => ⟨fun _ => rfl, fun h => absurd h hne, ?_⟩
    simp
  · -- as many arguments as formals: each is checked
    rename_i hlen
    have heq : fd.formals.length = args.length := by simpa using hlen
    refine (judges_checkArgs hcons n name 1 fd.formals args).bind
      (K := fun b ty es _ => ty = (if b = true then fd.ret else .error) ∧ es = [])
      (fun b => ?_) fun b ty ds es S h hty => ?_
    · rw [← apply_ite Pure.pure]
      exact Judges.pure fun _ => ⟨rfl, rfl⟩
    · rw [hty.2, List.append_nil]
      refine ⟨fun h' => absurd heq h', fun _ => h.1, ?_⟩
      rw [hty.1]
      by_cases hb : b = true
      · rw [if_pos hb, if_pos (h.2.1 hb)]
      · rw [if_neg hb, if_neg fun hds => hb (h.2.2 hds)]

/-- A shallow lookup answers what the prepared scope of its node binds, in the tables it ends
with and in every table grown from them. -/
lemma decides_findShallow (n : Nat) (x : String) :
    Decides t (findDecl t n x false) fun r S => r = (S[n]?).bind (·.lookup x) := by
  rw [findDecl_shallow]
  refine ((decides_prepareScope_read hcons n).bind_pure _).mono fun r S h => ?_
  obtain ⟨s, hr, hs, -⟩ := h
  rw [hr, hs]

/-- A call: when its callee is a function `f`, declared as `fd`, the call is checked against it. -/
lemma judges_callType (n : Nat) (name : Ident) (baseTy : Option Ty) (args : List (Nat × Ty)) :
    Judges t (callType t n name baseTy args) fun ty ds S => ∀ f fd,
      t.CallsIn S n name.name baseTy f → (t.kindAt f).fn? = some fd →
        t.CallChecked S n name fd args ds ty := by
  -- the function `found` names is the callee, and no other function is
  have hcall : ∀ (found : Option Nat) (f' : Nat),
      found.filter (fun d => (t.kindAt d).fn?.isSome) = some f' →
      Judges t (callOf t n name f' args) fun ty ds S => ∀ f fd,
        found = some f → (t.kindAt f).fn? = some fd → t.CallChecked S n name fd args ds ty := by
    intro found f' hf'
    obtain ⟨hfound, hfn⟩ := Option.filter_eq_some_iff.1 hf'
    obtain ⟨fd', hfd'⟩ := Option.isSome_iff_exists.1 hfn
    refine (judges_callOf hcons hfd' n name args).mono fun ty ds S h f fd hf hfd => ?_
    rw [hfound] at hf
    cases hf
    rw [hfd'] at hfd
    cases hfd
    exact h
  -- when `found` names no function, no callee is a function it names
  have hnone : ∀ (found : Option Nat),
      found.filter (fun d => (t.kindAt d).fn?.isSome) = none →
      ∀ f, (t.kindAt f).fn?.isSome = true → found ≠ some f := by
    intro found hnf f hfn hfound
    rw [hfound, Option.filter_some, if_pos hfn] at hnf
    cases hnf
  unfold callType
  split
  · -- no base: the name looked up from the call
    refine Judges.bind_lookup (decides_findDecl hcons n name.name) (lookup_findDecl t _ true n)
      fun found => ?_
    split
    · rename_i f' hf'
      refine (hcall found f' hf').mono fun ty ds S h hfind f fd hcalls hfd => ?_
      exact h f fd (hfind.unique hcalls.2) hfd
    · rename_i hnf
      refine Judges.report_pure _ rfl _ fun S hfind f fd hcalls _ => ?_
      exact absurd (hfind.unique hcalls.2) (hnone found hnf f hcalls.1)
  · -- an array has no method but `length`, which is no function
    rename_i elem
    have hno : ∀ S f, ¬ t.CallsIn S n name.name (some (.array elem)) f := fun _ _ =>
      Tree.not_callsIn_of_not_named fun _ h => by cases h
    split
    · split
      · exact Judges.pure fun S f _ hc _ => absurd hc (hno S f)
      · exact Judges.report_pure _ rfl _ fun S f _ hc _ => absurd hc (hno S f)
    · exact Judges.report_pure _ rfl _ fun S f _ hc _ => absurd hc (hno S f)
  · -- a class or interface: the method in its scope
    rename_i id
    refine Judges.bind_lookup (decides_resolveNamed hcons n id) (lookup_resolveNamed t n id)
      fun r => ?_
    split
    · -- the type names nothing
      refine Judges.report_pure _ rfl _ fun S hr f _ hc _ => ?_
      obtain ⟨d, hnames, -⟩ := hc.2
      cases (hr d).2 hnames
    · rename_i d
      refine Judges.bind_lookup (decides_findShallow hcons d name.name)
        (lookup_findDecl t _ false d) fun found => ?_
      -- the type names `d` alone, so the callee is what the scope of `d` binds
      have hfound : ∀ S f, (∀ e, some d = some e ↔ t.NamesIn S n id.name e) →
          found = (S[d]?).bind (·.lookup name.name) →
          t.CallsIn S n name.name (some (.named id)) f → found = some f := by
        intro S f hr hs hc
        obtain ⟨e, hnames, hbind⟩ := hc.2
        cases (hr e).2 hnames
        rw [hs, hbind]
      split
      · rename_i f' hf'
        refine (hcall found f' hf').mono fun ty ds S h hs hr f fd hc hfd => ?_
        exact h f fd (hfound S f hr hs hc) hfd
      · rename_i hnf
        refine Judges.report_pure _ rfl _ fun S hs hr f _ hc _ => ?_
        exact absurd (hfound S f hr hs hc) (hnone found hnf f hc.1)
  · -- any other type has no method
    rename_i other hna hnn
    exact Judges.report_pure _ rfl _ fun S f _ hc _ =>
      absurd hc (Tree.not_callsIn_of_not_named fun id h => hnn id h)

variable {cfg : Config} {n : Nat} {e : Expr} {m : Memo} {typed : List (Nat × Ty)}

/-- Typing a node keeps a memory well kept. -/
lemma keepsWell_getType (x : Nat) : Keeps (Memo.StaysWellKept t) (getType t cfg x) :=
  (keepsWell ((keepsLedger_checkBlock cfg hcons).2 x) ((keepsNames_checkBlock t cfg).2 x)
    ((grows_checkBlock t cfg).2.2.1 x)).mono fun _ _ _ _ h hw => (h hw).1

/-- Typing an expression not typed yet, from a well-kept memory: its operands are typed first, in
source order, ending in a well-kept memory, and the expression's own part runs from there. -/
lemma runs_getType_wellKept (hk : t.kindAt n = .expr e) (hn : m.types[n]? = none)
    (hw : m.WellKept t) :
    ∃ typed m₁ ds, Runs (operandTypes t cfg n) m typed m₁ ds ∧
      typed.map Prod.fst = (t.kindAt n).children ∧ m₁.WellKept t ∧
      ∀ ty m₂ own, Runs (ownType t cfg n e typed) m₁ ty m₂ own →
        Runs (getType t cfg n) m ty { m₂ with types := m₂.types.insert n ty } (ds ++ own) := by
  obtain ⟨typed, m₁, ds, hops, hwell, hkeys⟩ := spec_mapM_keyed (t.kindAt n).children.attach
    Subtype.val (g := fun x => getType t cfg x.1) (fun x _ => keepsWell_getType hcons x.1) m
  refine ⟨typed, m₁, ds, hops, by rw [hkeys, List.attach_map_subtype_val], hwell hw,
    fun ty m₂ own hown => runs_getType_infer hn ?_⟩
  rw [infer_expr t cfg hk]
  exact hops.bind hown

end Consistent

/-- After an ill-typed operand, an expression is ill-typed, with nothing more to say. -/
lemma ownType_of_error (h : ∃ p ∈ typed, p.2 = .error) : ownType t cfg n e typed = pure .error := by
  obtain ⟨p, hp, hpe⟩ := h
  rw [ownType, if_pos (List.any_eq_true.2 ⟨p, hp, by simp [hpe, Ty.isError]⟩)]

/-- With well-typed operands, an expression is typed by the rule of its construct. -/
lemma ownType_of_typed (h : ∀ p ∈ typed, p.2 ≠ .error) :
    ownType t cfg n e typed = exprType t cfg n (fun x => (typed.lookup x).getD .error) e := by
  rw [ownType, if_neg]
  rw [Bool.not_eq_true, List.any_eq_false]
  intro p hp
  cases hty : p.2 with
  | error => exact absurd hty (h p hp)
  | _ => exact Bool.false_ne_true

variable (cfg) in
/-- Typing a call whose base and arguments are well typed checks the arguments against the callee.
From every memory a session reaches, take a call at `n` not typed yet: its base and arguments are
typed first, in source order, and then the call itself. When none of them is ill-typed and the call
calls function `f` (the name looked up from the call, or a method in the scope of the class or
interface the base's type names), what the call itself reports besides the faults of preparing
scopes is: when the numbers of formals and arguments differ, one count mismatch at the name, and
otherwise one report at each argument whose formal is a variable of a type the argument's type is
not compatible with, numbered from 1, in order. The call has the return type of `f` when nothing
is reported, and the error type otherwise. -/
theorem call_checks_arguments {t : Tree} (hcons : t.Consistent) (hm : m.Reached t cfg)
    {base : Option Nat} {name : Ident} {actuals : List Nat}
    (hk : t.kindAt n = .expr (.call base name actuals)) (hn : m.types[n]? = none) :
    ∃ typed m₁ ds, Runs (operandTypes t cfg n) m typed m₁ ds ∧
      typed.map Prod.fst = base.toList ++ actuals ∧
      ∃ ty m₂ own, Runs (ownType t cfg n (.call base name actuals) typed) m₁ ty m₂ own ∧
        Runs (getType t cfg n) m ty { m₂ with types := m₂.types.insert n ty } (ds ++ own) ∧
        ((∀ p ∈ typed, p.2 ≠ .error) → ∀ f fd,
          t.CallsIn m₂.scopes n name.name (base.map fun b => (typed.lookup b).getD .error) f →
          (t.kindAt f).fn? = some fd →
          t.CallChecked m₂.scopes n name fd
            (actuals.map fun a => (a, (typed.lookup a).getD .error)) (ruleReports own) ty) := by
  obtain ⟨typed, m₁, ds, hops, hkeys, hw₁, hget⟩ :=
    runs_getType_wellKept hcons hk hn (hm.wellKept hcons)
  rw [hk] at hkeys
  refine ⟨typed, m₁, ds, hops, hkeys, ?_⟩
  by_cases herr : ∃ p ∈ typed, p.2 = .error
  · -- an ill-typed operand: the error type, and nothing to check
    have hown : Runs (ownType t cfg n (.call base name actuals) typed) m₁ .error m₁ [] := by
      rw [ownType_of_error herr]
      exact Runs.pure _ m₁
    refine ⟨.error, m₁, [], hown, hget _ _ _ hown, fun hall => ?_⟩
    obtain ⟨p, hp, hpe⟩ := herr
    exact absurd hpe (hall p hp)
  · -- well-typed operands: the rule of calls
    have hall : ∀ p ∈ typed, p.2 ≠ .error := fun p hp hpe => herr ⟨p, hp, hpe⟩
    obtain ⟨ty, m₂, own, hr, hq⟩ := judges_callType hcons n name
      (base.map fun b => (typed.lookup b).getD .error)
      (actuals.map fun a => (a, (typed.lookup a).getD .error)) m₁
    obtain ⟨-, -, hQ⟩ := hq hw₁
    have hown : Runs (ownType t cfg n (.call base name actuals) typed) m₁ ty m₂ own := by
      rw [ownType_of_typed hall]
      exact hr
    exact ⟨ty, m₂, own, hown, hget _ _ _ hown, fun _ => hQ m₂ (Memo.Grown.refl t m₂)⟩

end Analysis

/-- A function `f` with one formal `x` of type `int`, called as `f(true)`: node 0 is `x`, node 1
is `f`, node 2 the argument `true`, node 3 the call, node 4 the program, which lists `f` and the
call. -/
def Tree.boolArgument : Tree where
  nodes := #[⟨{}, some 1, .decl (.var ⟨⟨"x", {}⟩, .int⟩)⟩,
    ⟨{}, some 4, .decl (.fn ⟨⟨"f", {}⟩, .void, [0], none⟩)⟩,
    ⟨⟨3, 5, 3, 8⟩, some 3, .expr (.boolLit true)⟩,
    ⟨{}, some 4, .expr (.call none ⟨"f", ⟨3, 3, 3, 3⟩⟩ [2])⟩, ⟨{}, none, .program [1, 3]⟩]
  children_lt := by decide
  parent_gt := by decide

namespace Analysis

/-- Typing the call `f(true)` from a fresh analyser. -/
theorem boolArgument_checks_arguments :
    Tree.boolArgument.Consistent ∧ (Memo.fresh none).Reached Tree.boolArgument {} ∧
      Tree.boolArgument.kindAt 3 = .expr (.call none ⟨"f", ⟨3, 3, 3, 3⟩⟩ [2]) ∧
      (Memo.fresh none).types[3]? = none ∧
      ∃ typed m₁ ds, Runs (operandTypes Tree.boolArgument {} 3) (Memo.fresh none) typed m₁ ds ∧
        typed.map Prod.fst = [2] ∧
        ∃ ty m₂ own, Runs (ownType Tree.boolArgument {} 3 (.call none ⟨"f", ⟨3, 3, 3, 3⟩⟩ [2])
            typed) m₁ ty m₂ own ∧
          Runs (getType Tree.boolArgument {} 3) (Memo.fresh none) ty
            { m₂ with types := m₂.types.insert 3 ty } (ds ++ own) ∧
          ((∀ p ∈ typed, p.2 ≠ .error) → ∀ f fd,
            Tree.boolArgument.CallsIn m₂.scopes 3 "f" none f →
            (Tree.boolArgument.kindAt f).fn? = some fd →
            Tree.boolArgument.CallChecked m₂.scopes 3 ⟨"f", ⟨3, 3, 3, 3⟩⟩ fd
              ([2].map fun a => (a, (typed.lookup a).getD .error)) (ruleReports own) ty) := by
  have hcons : Tree.boolArgument.Consistent := by decide
  have hm : (Memo.fresh none).Reached Tree.boolArgument {} := ⟨[], rfl⟩
  have hk : Tree.boolArgument.kindAt 3 = .expr (.call none ⟨"f", ⟨3, 3, 3, 3⟩⟩ [2]) := rfl
  exact ⟨hcons, hm, hk, rfl, call_checks_arguments {} hcons hm hk rfl⟩

end Analysis

end DecafCheck
