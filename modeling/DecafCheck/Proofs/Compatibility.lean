import DecafCheck.Proofs.NameBinding
/-!
# Compatibility is a preorder away from the error type

Whether a value of one type may stand where another is expected depends on the class hierarchy
as the prepared scopes give it: the class or interface a name finds from the node where the types
are compared, the superclass each class's `extends` name finds from its parent, and the interfaces
that the `implements` names of a class find. Said over a table of prepared scopes
(`Tree.CompatibleIn`): an ill-typed side, `null` where `null` or a reference is expected, the same
type, or a class where one of its superclasses, or an interface one of them implements, is
expected. In every table this relation is reflexive, and transitive through any middle type but
the error type (`Tree.CompatibleIn.trans`), since a chain of superclasses followed by another is
one chain.

A run of `compatible` answers exactly this relation in the tables it ends with, and in every table
grown from them (`Analysis.decides_compatible`). The lookups it makes leave every scope they
prepare as it is for good, and the class chain lists every class a class reaches through
superclasses, so once a comparison has been answered, later tables do not change its answer. From
every memory a session reaches, then, `compatible` answers yes for a type against itself, and once
it has answered yes for `a` against `b` and for `b` against `c`, with `b` not the error type, it
answers yes for `a` against `c` (`compatible_preorder`).
-/

namespace DecafCheck

namespace Ty

/-- The type with the span of every identifier in it forgotten. -/
def eraseSpans : Ty → Ty
  | named id => named ⟨id.name, {}⟩
  | array elem => array elem.eraseSpans
  | a => a

/-- Two types are the same exactly when they agree once spans are forgotten. -/
theorem sameAs_iff_eraseSpans {a b : Ty} : a.sameAs b = true ↔ a.eraseSpans = b.eraseSpans := by
  induction a generalizing b with
  | array a ih => cases b <;> simp [sameAs, eraseSpans, ih]
  | _ => cases b <;> simp [sameAs, eraseSpans]

variable {a b c : Ty}

lemma sameAs_self (a : Ty) : a.sameAs a = true := sameAs_iff_eraseSpans.2 rfl

lemma sameAs_symm (h : a.sameAs b = true) : b.sameAs a = true :=
  sameAs_iff_eraseSpans.2 (sameAs_iff_eraseSpans.1 h).symm

lemma sameAs_trans (h₁ : a.sameAs b = true) (h₂ : b.sameAs c = true) : a.sameAs c = true :=
  sameAs_iff_eraseSpans.2 ((sameAs_iff_eraseSpans.1 h₁).trans (sameAs_iff_eraseSpans.1 h₂))

@[simp] lemma isError_eraseSpans (a : Ty) : a.eraseSpans.isError = a.isError := by
  cases a <;> rfl

@[simp] lemma isNull_eraseSpans (a : Ty) : a.eraseSpans.isNull = a.isNull := by
  cases a <;> rfl

@[simp] lemma isReference_eraseSpans (a : Ty) : a.eraseSpans.isReference = a.isReference := by
  cases a <;> rfl

/-- The same types are ill-typed, `null` or references alike. -/
lemma predicates_eq_of_sameAs (h : a.sameAs b = true) :
    a.isError = b.isError ∧ a.isNull = b.isNull ∧ a.isReference = b.isReference := by
  have he := sameAs_iff_eraseSpans.1 h
  refine ⟨?_, ?_, ?_⟩
  · rw [← isError_eraseSpans a, he, isError_eraseSpans]
  · rw [← isNull_eraseSpans a, he, isNull_eraseSpans]
  · rw [← isReference_eraseSpans a, he, isReference_eraseSpans]

/-- A type the same as a named type is a named type of the same name. -/
lemma eq_named_of_sameAs {x : Ident} (h : (named x).sameAs b = true) :
    ∃ y, b = named y ∧ y.name = x.name := by
  cases b <;> simp_all [sameAs]

end Ty

namespace NodeKind

/-- A class declaration is no interface declaration. -/
lemma isIface_eq_false_of_cls? {k : NodeKind} (h : k.cls?.isSome = true) : k.isIface = false := by
  cases k with
  | decl d => cases d <;> simp_all [cls?, isIface]
  | _ => simp [cls?] at h

end NodeKind

namespace Tree

variable (t : Tree) (S : Std.TreeMap Nat Scope)

/-- In the table `S`, class `c` is `d` or extends it, directly or through others. -/
def SubclassIn (c d : Nat) : Prop := Relation.ReflTransGen (t.SuperStepIn S) c d

/-- In the table `S`, one of the names that class `d` says it implements, looked up from the
parent of `d`, finds `i`. -/
def DeclaresIn (d i : Nat) : Prop :=
  ∃ cd p, (t.kindAt d).cls? = some cd ∧ t.parentOf d = some p ∧
    ∃ id ∈ cd.interfaces, t.FindsIn S p id.name (some i)

/-- In the table `S`, class `c` or one of its superclasses says it implements `i`. -/
def ImplementsIn (c i : Nat) : Prop := ∃ d, t.SubclassIn S c d ∧ t.DeclaresIn S d i

/-- In the table `S`, the name `x` finds at `n` the class or interface `d`. -/
def NamesIn (n : Nat) (x : String) (d : Nat) : Prop :=
  t.FindsIn S n x (some d) ∧ (t.kindAt d).isTypeDecl = true

/-- In the table `S`, class `c` stands where `d` is expected: `d` is `c` or a superclass of it,
or an interface that `c` or a superclass implements. -/
def SubtypeIn (c d : Nat) : Prop :=
  (t.kindAt c).cls?.isSome = true ∧
    ((t.kindAt d).cls?.isSome = true ∧ t.SubclassIn S c d ∨
      (t.kindAt d).isIface = true ∧ t.ImplementsIn S c d)

/-- In the table `S`, `a` and `b` are named types whose names find at `n` a class and a class or
interface it stands for. -/
def NamedSubtypeIn (n : Nat) (a b : Ty) : Prop :=
  ∃ x y c d, a = .named x ∧ b = .named y ∧ t.NamesIn S n x.name c ∧ t.NamesIn S n y.name d ∧
    t.SubtypeIn S c d

/-- In the table `S`, a value of type `a` may stand at `n` where `b` is expected: either is the
error type; `a` is `null` and `b` is `null` or a reference type; `a` is the same type as `b`; or `a`
names a class that stands for what `b` names. -/
def CompatibleIn (n : Nat) (a b : Ty) : Prop :=
  a.isError = true ∨ b.isError = true ∨
    (a.isNull = true ∧ (b.isNull = true ∨ b.isReference = true)) ∨
    (a.isNull = false ∧ a.sameAs b = true) ∨ t.NamedSubtypeIn S n a b

variable {t S} {n c d e : Nat} {a b a' b' : Ty}

lemma SubclassIn.refl (c : Nat) : t.SubclassIn S c c := Relation.ReflTransGen.refl

lemma SubclassIn.trans (h₁ : t.SubclassIn S c d) (h₂ : t.SubclassIn S d e) : t.SubclassIn S c e :=
  Relation.ReflTransGen.trans h₁ h₂

/-- A class extends the class that its `extends` name finds from its parent. -/
lemma SuperStepIn.of_findsIn {p : Nat} {y : Ident} (hsite : t.superSite c = some (p, y))
    (hf : t.FindsIn S p y.name (some d)) (hd : (t.kindAt d).cls?.isSome = true) :
    t.SuperStepIn S c d := by
  have h := SuperIn.named hsite hf
  rwa [Option.filter_some, if_pos hd] at h

lemma SubclassIn.grown {m m' : Memo} (hg : m.Grown t m') (h : t.SubclassIn m.scopes c d) :
    t.SubclassIn m'.scopes c d :=
  Relation.ReflTransGen.mono (fun _ _ hs => SuperStepIn.grown hg hs) _ _ h

lemma DeclaresIn.grown {m m' : Memo} (hg : m.Grown t m') (h : t.DeclaresIn m.scopes d e) :
    t.DeclaresIn m'.scopes d e := by
  obtain ⟨cd, p, hcd, hp, id, hid, hf⟩ := h
  exact ⟨cd, p, hcd, hp, id, hid, hf.grown hg⟩

lemma NamesIn.grown {m m' : Memo} (hg : m.Grown t m') {x : String} (h : t.NamesIn m.scopes n x d) :
    t.NamesIn m'.scopes n x d :=
  ⟨h.1.grown hg, h.2⟩

lemma NamesIn.unique {x : String} (h : t.NamesIn S n x d) (h' : t.NamesIn S n x e) : d = e :=
  Option.some.inj (h.1.unique h'.1)

lemma SubtypeIn.grown {m m' : Memo} (hg : m.Grown t m') (h : t.SubtypeIn m.scopes c d) :
    t.SubtypeIn m'.scopes c d := by
  obtain ⟨hc, ⟨hd, hsub⟩ | ⟨hd, d', hcd', hdecl⟩⟩ := h
  · exact ⟨hc, .inl ⟨hd, hsub.grown hg⟩⟩
  · exact ⟨hc, .inr ⟨hd, d', hcd'.grown hg, hdecl.grown hg⟩⟩

/-- A class standing for a class that stands for a third stands for the third: the superclass
chains join, and an interface implemented up the second chain is implemented up the first. -/
lemma SubtypeIn.trans (h₁ : t.SubtypeIn S c d) (h₂ : t.SubtypeIn S d e) : t.SubtypeIn S c e := by
  obtain ⟨hd, hde⟩ := h₂
  -- the middle one is a class, so the first stands for it through superclasses
  have hcd : t.SubclassIn S c d := by
    rcases h₁.2 with ⟨-, h⟩ | ⟨hi, -⟩
    · exact h
    · rw [NodeKind.isIface_eq_false_of_cls? hd] at hi
      cases hi
  refine ⟨h₁.1, ?_⟩
  rcases hde with ⟨he, hsub⟩ | ⟨he, d', hdd', hdecl⟩
  · exact .inl ⟨he, hcd.trans hsub⟩
  · exact .inr ⟨he, d', hcd.trans hdd', hdecl⟩

lemma CompatibleIn.grown {m m' : Memo} (hg : m.Grown t m') (h : t.CompatibleIn m.scopes n a b) :
    t.CompatibleIn m'.scopes n a b := by
  rcases h with h | h | h | h | ⟨x, y, c, d, hx, hy, hc, hd, hsub⟩
  · exact .inl h
  · exact .inr (.inl h)
  · exact .inr (.inr (.inl h))
  · exact .inr (.inr (.inr (.inl h)))
  · exact .inr (.inr (.inr (.inr ⟨x, y, c, d, hx, hy, hc.grown hg, hd.grown hg, hsub.grown hg⟩)))

/-- A class named at `n` stands for every superclass named there. -/
lemma CompatibleIn.of_subclassIn {x y : Ident} (hx : t.NamesIn S n x.name c)
    (hy : t.NamesIn S n y.name d) (hc : (t.kindAt c).cls?.isSome = true)
    (hd : (t.kindAt d).cls?.isSome = true) (hsub : t.SubclassIn S c d) :
    t.CompatibleIn S n (.named x) (.named y) :=
  .inr (.inr (.inr (.inr ⟨x, y, c, d, rfl, rfl, hx, hy, hc, .inl ⟨hd, hsub⟩⟩)))

/-- Every type may stand where it is itself expected. -/
theorem CompatibleIn.refl (a : Ty) : t.CompatibleIn S n a a := by
  cases hn : a.isNull
  · exact .inr (.inr (.inr (.inl ⟨hn, Ty.sameAs_self a⟩)))
  · exact .inr (.inr (.inl ⟨hn, .inl hn⟩))

/-- Compatibility looks at types only up to the spans of their identifiers. -/
lemma CompatibleIn.of_sameAs (ha : a.sameAs a' = true) (hb : b.sameAs b' = true)
    (h : t.CompatibleIn S n a b) : t.CompatibleIn S n a' b' := by
  obtain ⟨hae, han, har⟩ := Ty.predicates_eq_of_sameAs ha
  obtain ⟨hbe, hbn, hbr⟩ := Ty.predicates_eq_of_sameAs hb
  rcases h with h | h | ⟨h₁, h₂⟩ | ⟨h₁, h₂⟩ | ⟨x, y, c, d, rfl, rfl, hx, hy, hsub⟩
  · exact .inl (hae ▸ h)
  · exact .inr (.inl (hbe ▸ h))
  · exact .inr (.inr (.inl ⟨han ▸ h₁, hbn ▸ hbr ▸ h₂⟩))
  · exact .inr (.inr (.inr (.inl ⟨han ▸ h₁,
      Ty.sameAs_trans (Ty.sameAs_symm ha) (Ty.sameAs_trans h₂ hb)⟩)))
  · obtain ⟨x', rfl, hx'⟩ := Ty.eq_named_of_sameAs ha
    obtain ⟨y', rfl, hy'⟩ := Ty.eq_named_of_sameAs hb
    exact .inr (.inr (.inr (.inr ⟨x', y', c, d, rfl, rfl, hx' ▸ hx, hy' ▸ hy, hsub⟩)))

/-- Compatibility is transitive through every middle type but the error type. -/
theorem CompatibleIn.trans (hb : b.isError = false) (h₁ : t.CompatibleIn S n a b)
    {c : Ty} (h₂ : t.CompatibleIn S n b c) : t.CompatibleIn S n a c := by
  rcases h₁ with ha | hbe | ⟨han, hbn⟩ | ⟨han, hab⟩ | ⟨x, y, c₁, d₁, rfl, rfl, hx, hy, hcd⟩
  · exact .inl ha
  · rw [hb] at hbe
    cases hbe
  · -- `null` where `b` is expected: `c` is `null` or a reference too
    rcases h₂ with hbe | hce | ⟨-, hcn⟩ | ⟨hbn', hbc⟩ | ⟨y, z, d, e, rfl, rfl, -⟩
    · rw [hb] at hbe
      cases hbe
    · exact .inr (.inl hce)
    · exact .inr (.inr (.inl ⟨han, hcn⟩))
    · have hbr : b.isReference = true := by simpa [hbn'] using hbn
      have hcr := (Ty.predicates_eq_of_sameAs hbc).2.2
      exact .inr (.inr (.inl ⟨han, .inr (hcr ▸ hbr)⟩))
    · exact .inr (.inr (.inl ⟨han, .inr rfl⟩))
  · -- the same type as `b` stands wherever `b` does
    exact h₂.of_sameAs (Ty.sameAs_symm hab) (Ty.sameAs_self c)
  · -- a class standing for what `b` names
    rcases h₂ with hbe | hce | ⟨hbn, -⟩ | ⟨-, hbc⟩ | ⟨y', z, d₂, e, hyy, rfl, hy', hz, hde⟩
    · cases hbe
    · exact .inr (.inl hce)
    · cases hbn
    · exact CompatibleIn.of_sameAs (Ty.sameAs_self _) hbc
        (.inr (.inr (.inr (.inr ⟨x, y, c₁, d₁, rfl, rfl, hx, hy, hcd⟩))))
    · cases hyy
      cases hy.unique hy'
      exact .inr (.inr (.inr (.inr ⟨x, z, c₁, e, rfl, rfl, hx, hz, hcd.trans hde⟩)))

/-- A named type is not `null`. -/
lemma NamedSubtypeIn.isNull_eq_false (h : t.NamedSubtypeIn S n a b) : a.isNull = false := by
  obtain ⟨x, y, c, d, rfl, -⟩ := h
  rfl

lemma namedSubtypeIn_named_iff {x y : Ident} :
    t.NamedSubtypeIn S n (.named x) (.named y) ↔
      ∃ c d, t.NamesIn S n x.name c ∧ t.NamesIn S n y.name d ∧ t.SubtypeIn S c d := by
  simp [NamedSubtypeIn]

lemma not_namedSubtypeIn (h : ∀ x y, a = .named x → b = .named y → False) :
    ¬ t.NamedSubtypeIn S n a b := by
  rintro ⟨x, y, c, d, hx, hy, -⟩
  exact h x y hx hy

lemma compatibleIn_of_isError (h : a.isError = true ∨ b.isError = true) :
    t.CompatibleIn S n a b :=
  h.elim .inl fun hb => .inr (.inl hb)

/-- `null` is compatible exactly with `null` and the reference types. -/
lemma compatibleIn_iff_of_isNull (ha : a.isError = false) (hb : b.isError = false)
    (hn : a.isNull = true) : t.CompatibleIn S n a b ↔ (b.isNull || b.isReference) = true := by
  constructor
  · rintro (h | h | ⟨-, h⟩ | ⟨h, -⟩ | h)
    · simp [ha] at h
    · simp [hb] at h
    · simpa using h
    · simp [hn] at h
    · exact absurd h.isNull_eq_false (by simp [hn])
  · intro h
    exact .inr (.inr (.inl ⟨hn, by simpa using h⟩))

/-- Away from the error type and `null`, compatibility is sameness or a class standing for what
the expected type names. -/
lemma compatibleIn_iff (ha : a.isError = false) (hb : b.isError = false) (hn : a.isNull = false) :
    t.CompatibleIn S n a b ↔ a.sameAs b = true ∨ t.NamedSubtypeIn S n a b := by
  constructor
  · rintro (h | h | ⟨h, -⟩ | ⟨-, h⟩ | h)
    · simp [ha] at h
    · simp [hb] at h
    · simp [hn] at h
    · exact .inl h
    · exact .inr h
  · rintro (h | h)
    · exact .inr (.inr (.inr (.inl ⟨hn, h⟩)))
    · exact .inr (.inr (.inr (.inr h)))

lemma not_subtypeIn_of_isNone (hc : (t.kindAt c).cls?.isNone = true) : ¬ t.SubtypeIn S c d := by
  rintro ⟨hc', -⟩
  simp [Option.isSome_iff_ne_none, Option.isNone_iff_eq_none] at hc hc'
  exact hc' hc

/-- Between classes, standing for is being a subclass. -/
lemma subtypeIn_iff_of_class (hc : (t.kindAt c).cls?.isSome = true)
    (hd : (t.kindAt d).cls?.isSome = true) : t.SubtypeIn S c d ↔ t.SubclassIn S c d := by
  simp [SubtypeIn, hc, hd, NodeKind.isIface_eq_false_of_cls? hd]

/-- A class stands for an interface when it or a superclass implements it. -/
lemma subtypeIn_iff_of_iface (hc : (t.kindAt c).cls?.isSome = true)
    (hd : (t.kindAt d).cls?.isSome = false) (hi : (t.kindAt d).isIface = true) :
    t.SubtypeIn S c d ↔ t.ImplementsIn S c d := by
  simp [SubtypeIn, hc, hd, hi]

lemma not_subtypeIn_of_kind (hd : (t.kindAt d).cls?.isSome = false)
    (hi : (t.kindAt d).isIface = false) : ¬ t.SubtypeIn S c d := by
  simp [SubtypeIn, hd, hi]

end Tree

/-- The ledger describes the prepared scopes with nothing pending, and they bind names only to
declarations of those names. -/
def Memo.WellKept (t : Tree) (m : Memo) : Prop :=
  (∃ R, t.Logged [] R m.scopes) ∧ m.NamesBound t

/-- Every memory a session reaches is well kept. -/
lemma Memo.Reached.wellKept {t : Tree} {cfg : Config} {m : Memo} (hcons : t.Consistent)
    (hm : m.Reached t cfg) : m.WellKept t :=
  ⟨hm.logged hcons, hm.namesBound⟩

/-- Memories that differ in their logs only have the same tables. -/
lemma Memo.scopes_eq_of_withLog {m₁ m₁' : Memo} (he : ∀ log, m₁.withLog log = m₁'.withLog log) :
    m₁.scopes = m₁'.scopes := by
  simpa using congrArg Memo.scopes (he {})

/-- Growth looks at the tables only, not at the log. -/
lemma Memo.Grown.withLog_right {t : Tree} {m m' : Memo} (h : m.Grown t m') (log : Log) :
    m.Grown t (m'.withLog log) :=
  ⟨h.1, h.2, h.3, h.4⟩

lemma Memo.Grown.of_withLog_left {t : Tree} {m m' : Memo} {log : Log}
    (h : (m.withLog log).Grown t m') : m.Grown t m' :=
  ⟨h.1, h.2, h.3, h.4⟩

lemma Memo.Grown.congr_right {t : Tree} {m m₁ m₁' : Memo} (h : m.Grown t m₁')
    (he : ∀ log, m₁.withLog log = m₁'.withLog log) : m.Grown t m₁ := by
  have hm : m₁ = m₁'.withLog m₁.log := by rw [← he, Memo.withLog_self]
  rw [hm]
  exact h.withLog_right _

lemma Memo.Grown.congr_left {t : Tree} {m m₁ m₁' : Memo} (h : m₁.Grown t m)
    (he : ∀ log, m₁.withLog log = m₁'.withLog log) : m₁'.Grown t m := by
  have hm : m₁ = m₁'.withLog m₁.log := by rw [← he, Memo.withLog_self]
  rw [hm] at h
  exact h.of_withLog_left

namespace Analysis

variable {t : Tree} {α β : Type}

/-- Every run of `c` from a well-kept memory ends in a well-kept memory grown from it, with an
answer related by `Q` to the tables of every memory grown from its end. -/
def Decides (t : Tree) (c : AnalysisM α) (Q : α → Std.TreeMap Nat Scope → Prop) : Prop :=
  Spec c fun m a m' _ => m.WellKept t →
    m'.WellKept t ∧ m.Grown t m' ∧ ∀ m'', m'.Grown t m'' → Q a m''.scopes

namespace Decides

variable {c : AnalysisM α} {f : α → AnalysisM β} {Q Q₁ : α → Std.TreeMap Nat Scope → Prop}
  {Q' : β → Std.TreeMap Nat Scope → Prop}

lemma pure {a : α} (h : ∀ S, Q a S) : Decides t (pure a : AnalysisM α) Q :=
  fun m => ⟨a, m, [], Runs.pure a m, fun hw => ⟨hw, Memo.Grown.refl t m, fun _ _ => h _⟩⟩

lemma mono (h : Decides t c Q) (hQ : ∀ a S, Q a S → Q₁ a S) : Decides t c Q₁ :=
  Spec.mono h fun _ _ _ _ hq hw => (hq hw).imp_right fun h' => h'.imp_right fun h'' m'' hg =>
    hQ _ _ (h'' m'' hg)

lemma bind {P : α → β → Std.TreeMap Nat Scope → Prop} (hc : Decides t c Q)
    (hf : ∀ a, Decides t (f a) (P a)) (hQ : ∀ a b S, Q a S → P a b S → Q' b S) :
    Decides t (c >>= f) Q' := by
  refine Spec.bind hc hf fun m a m₁ ds b m₂ es h₁ h₂ hw => ?_
  obtain ⟨hw₁, hg₁, hq₁⟩ := h₁ hw
  obtain ⟨hw₂, hg₂, hq₂⟩ := h₂ hw₁
  exact ⟨hw₂, hg₁.trans hg₂, fun m'' hg => hQ a b _ (hq₁ m'' (hg₂.trans hg)) (hq₂ m'' hg)⟩

/-- Answering with a function of the first answer. -/
lemma bind_pure (hc : Decides t c Q) (g : α → β) :
    Decides t (c >>= fun a => Pure.pure (g a)) fun b S => ∃ a, b = g a ∧ Q a S :=
  hc.bind (P := fun a b _ => b = g a) (fun _ => Decides.pure fun _ => rfl)
    fun a _ _ hq hb => ⟨a, hb, hq⟩

/-- Answering yes at once when a first test passes, and otherwise running a second. -/
lemma bind_ite {k : AnalysisM Bool} {g : α → Bool} {P R : Std.TreeMap Nat Scope → Prop}
    (hc : Decides t c fun a S => (g a = true ↔ P S))
    (hk : Decides t k fun b S => (b = true ↔ R S)) :
    Decides t (c >>= fun a => if g a then Pure.pure true else k) fun b S =>
      (b = true ↔ P S ∨ R S) := by
  refine hc.bind (P := fun a b S => (g a = true → b = true) ∧ (g a = false → (b = true ↔ R S)))
    (fun a => ?_) fun a b S hg hb => ?_
  · cases hga : g a with
    | false =>
      rw [if_neg Bool.false_ne_true]
      exact hk.mono fun b S h => ⟨fun h' => absurd h' Bool.false_ne_true, fun _ => h⟩
    | true => exact Decides.pure fun S => ⟨fun _ => rfl, fun h => by cases h⟩
  · cases hga : g a with
    | false =>
      rw [hga] at hg hb
      rw [hb.2 rfl]
      exact ⟨.inr, fun h => h.resolve_left fun hp => Bool.false_ne_true (hg.2 hp)⟩
    | true =>
      rw [hga] at hg hb
      exact ⟨fun _ => .inl (hg.1 rfl), fun _ => hb.1 rfl⟩

/-- The run from a well-kept memory itself. -/
lemma run {m : Memo} (h : Decides t c Q) (hw : m.WellKept t) :
    (c.run m).2.WellKept t ∧ m.Grown t (c.run m).2 ∧
      ∀ m'', (c.run m).2.Grown t m'' → Q (c.run m).1 m''.scopes := by
  obtain ⟨a, m', ds, hr, hq⟩ := h m
  obtain ⟨hw', hg, hQ⟩ := hq hw
  rw [hr.run_eq]
  exact ⟨hw', hg.withLog_right _, fun m'' hg' => hQ m'' hg'.of_withLog_left⟩

end Decides

/-- Lookups, class chains and type comparisons keep a memory well kept, and grow it. -/
lemma keepsWell {c : AnalysisM α} (hl : KeepsLedger t c) (hn : Keeps (Memo.KeepsNames t) c)
    (hg : Keeps (Memo.Grown t) c) :
    Spec c fun m _ m' _ => m.WellKept t → m'.WellKept t ∧ m.Grown t m' := by
  refine ((hl.and hn fun _ _ _ _ _ he hq h =>
      (hq h).of_scopes_eq (Memo.scopes_eq_of_withLog he)).and
    hg fun _ _ _ _ _ he hq => hq.congr_right he).mono ?_
  rintro m _ m' _ ⟨⟨hlog, hnames⟩, hgrown⟩ ⟨⟨R, hR⟩, hnb⟩
  obtain ⟨R', hR', -⟩ := hlog R hR
  exact ⟨⟨⟨_, hR'⟩, hnames hnb⟩, hgrown⟩

/-- A computation that keeps memories well kept decides `Q` when from a well-kept memory its
answer is related by `Q` to every table grown from the one it ends with. -/
lemma Decides.of_keepsWell {c : AnalysisM α} {Q : α → Std.TreeMap Nat Scope → Prop}
    (hk : Spec c fun m _ m' _ => m.WellKept t → m'.WellKept t ∧ m.Grown t m')
    (hq : Spec c fun m a m' _ => m.WellKept t → ∀ m'', m'.Grown t m'' → Q a m''.scopes) :
    Decides t c Q :=
  (hk.and hq fun _ _ _ _ _ he hq hw m'' hg => hq hw m'' (hg.congr_left he)).mono
    fun _ _ _ _ h hw => ⟨(h.1 hw).1, (h.1 hw).2, h.2 hw⟩

section Consistent

variable (hcons : t.Consistent)
include hcons

/-- What every property kept step by step holds of keeps memories well kept and grows them. -/
lemma keepsWell_of_steps {c : AnalysisM α}
    (hc : ∀ {P : {α : Type} → AnalysisM α → Prop}, Stepwise t P → P c) :
    Spec c fun m _ m' _ => m.WellKept t → m'.WellKept t ∧ m.Grown t m' :=
  keepsWell (hc (stepwise_keepsLedger hcons)) (hc (stepwise_keepsNames t)) (hc stepwise_grows)

/-- A deep lookup finds what a lookup through the tables it ends with finds. -/
lemma decides_findDecl (n : Nat) (x : String) :
    Decides t (findDecl t n x true) fun r S => t.FindsIn S n x r := by
  refine Decides.of_keepsWell (keepsWell_of_steps hcons fun h => h.find n x true)
    (((logs_scopeBlock hcons).2.2 [] n x true).mono fun m r m' ds hq hw m'' hg => ?_)
  obtain ⟨R, hR⟩ := hw.1
  obtain ⟨-, -, hfind⟩ := hq R hR .nil List.nodup_nil fun _ hy => absurd hy List.not_mem_nil
  exact (hfind rfl).grown hg

/-- The superclass found is the one the tables it ends with give. -/
lemma decides_superclassOf (c : Nat) :
    Decides t (superclassOf t c) fun r S => t.SuperIn S c r := by
  refine Decides.of_keepsWell (keepsWell_of_steps hcons fun h => h.super c)
    (((logs_scopeBlock hcons).2.1 [] c).mono fun m r m' ds hq hw m'' hg => ?_)
  obtain ⟨R, hR⟩ := hw.1
  obtain ⟨-, -, hsup⟩ := hq R hR .nil List.nodup_nil fun _ hy => absurd hy List.not_mem_nil
  exact hsup.grown hg

/-- The chain from `c`, with the classes `seen` listed already, lists classes that `c` reaches
through superclasses; together with `seen` it holds the superclass of `c` and of every class it
lists. -/
lemma decides_chainFrom (seen : List Nat) (c : Nat) :
    Decides t (chainFrom t seen c) fun L S => (∀ y ∈ L, t.SubclassIn S c y) ∧
      ∀ y ∈ c :: L, ∃ r, t.SuperIn S y r ∧ ∀ d, r = some d → d ∈ seen ∨ d ∈ L := by
  rw [chainFrom]
  refine (decides_superclassOf hcons c).bind
    (P := fun r L S => t.SuperIn S c r → (∀ y ∈ L, t.SubclassIn S c y) ∧
      ∀ y ∈ c :: L, ∃ r, t.SuperIn S y r ∧ ∀ d, r = some d → d ∈ seen ∨ d ∈ L)
    (fun r => ?_) fun r L S hr hL => hL hr
  cases r with
  | none =>
    refine Decides.pure fun S hsup => ⟨fun y hy => absurd hy List.not_mem_nil, fun y hy => ?_⟩
    rw [List.mem_singleton.1 hy]
    exact ⟨none, hsup, fun d hd => by cases hd⟩
  | some next =>
    by_cases hs : next ∈ seen
    · simp only [hs, dite_true]
      refine Decides.pure fun S hsup => ⟨fun y hy => absurd hy List.not_mem_nil, fun y hy => ?_⟩
      rw [List.mem_singleton.1 hy]
      exact ⟨some next, hsup, fun d hd => .inl (Option.some.inj hd ▸ hs)⟩
    · by_cases hn : next < t.size
      · have := t.unseen_cons_lt hn hs
        simp only [hs, hn, dite_false, dite_true]
        refine ((decides_chainFrom (next :: seen) next).bind_pure fun L => next :: L).mono ?_
        rintro _ S ⟨L, rfl, hsub, hsup⟩ hc
        refine ⟨fun y hy => ?_, fun y hy => ?_⟩
        · -- `c` extends `next`, which reaches every class listed after it
          have hstep : t.SubclassIn S c next := Relation.ReflTransGen.single hc
          rcases List.mem_cons.1 hy with rfl | hy
          · exact hstep
          · exact hstep.trans (hsub y hy)
        · rcases List.mem_cons.1 hy with rfl | hy
          · exact ⟨some next, hc, fun d hd => .inr (Option.some.inj hd ▸ List.mem_cons_self)⟩
          · obtain ⟨r, hr, hmem⟩ := hsup y hy
            refine ⟨r, hr, fun d hd => ?_⟩
            rcases hmem d hd with hd | hd
            · rcases List.mem_cons.1 hd with rfl | hd
              · exact .inr List.mem_cons_self
              · exact .inl hd
            · exact .inr (List.mem_cons_of_mem next hd)
      · -- a superclass lies in the tree, so this branch is never taken
        simp only [hs, hn, dite_false]
        exact Decides.pure fun S hsup => absurd (Tree.SuperStepIn.lt_size hsup) hn
termination_by t.unseen seen

/-- The class chain of `c` lists exactly the classes `c` reaches through superclasses. -/
lemma decides_classChain (c : Nat) :
    Decides t (classChain t c) fun L S => ∀ y, y ∈ L ↔ t.SubclassIn S c y := by
  refine ((decides_chainFrom hcons [c] c).bind_pure fun L => c :: L).mono ?_
  rintro _ S ⟨L, rfl, hsub, hsup⟩ y
  refine ⟨fun hy => ?_, fun hy => ?_⟩
  · rcases List.mem_cons.1 hy with rfl | hy
    · exact Tree.SubclassIn.refl _
    · exact hsub y hy
  · -- the listed classes hold the superclass of each of them
    induction hy with
    | refl => exact List.mem_cons_self
    | tail _ hstep ih =>
      obtain ⟨r, hr, hmem⟩ := hsup _ ih
      rcases hmem _ (Tree.SuperIn.unique hr hstep) with hd | hd
      · rw [List.mem_singleton.1 hd]
        exact List.mem_cons_self
      · exact List.mem_cons_of_mem c hd

lemma decides_isSubclassOf (sub sup : Nat) :
    Decides t (isSubclassOf t sub sup) fun b S => (b = true ↔ t.SubclassIn S sub sup) := by
  refine ((decides_classChain hcons sub).bind_pure fun L => L.contains sup).mono ?_
  rintro _ S ⟨L, rfl, hL⟩
  rw [List.contains_iff_mem, hL]

lemma decides_namesFind (p iface : Nat) (ids : List Ident) :
    Decides t (namesFind t p iface ids) fun b S =>
      (b = true ↔ ∃ id ∈ ids, t.FindsIn S p id.name (some iface)) := by
  induction ids with
  | nil => exact Decides.pure fun S => by simp
  | cons id rest ih =>
    rw [namesFind]
    -- the first name finds `iface` exactly when its lookup answers `iface`
    have hfirst : Decides t (findDecl t p id.name true) fun r S =>
        ((r == some iface) = true ↔ t.FindsIn S p id.name (some iface)) :=
      (decides_findDecl hcons p id.name).mono fun r S hf =>
        ⟨fun h => beq_iff_eq.1 h ▸ hf, fun h => beq_iff_eq.2 (hf.unique h)⟩
    exact (hfirst.bind_ite ih).mono fun b S h => h.trans
      (List.exists_mem_cons_iff (fun id : Ident => t.FindsIn S p id.name (some iface)) id rest).symm

lemma decides_anyImplements (iface : Nat) (cs : List Nat) :
    Decides t (anyImplements t iface cs) fun b S =>
      (b = true ↔ ∃ d ∈ cs, t.DeclaresIn S d iface) := by
  induction cs with
  | nil => exact Decides.pure fun S => by simp
  | cons c rest ih =>
    rw [anyImplements]
    split
    · rename_i cd p hcd hp
      -- what `c` declares is what its names find from its parent
      have hdecl : ∀ S, t.DeclaresIn S c iface ↔
          ∃ id ∈ cd.interfaces, t.FindsIn S p id.name (some iface) := by
        intro S
        constructor
        · rintro ⟨cd', p', hcd', hp', hfind⟩
          rw [hcd] at hcd'
          rw [hp] at hp'
          cases hcd'
          cases hp'
          exact hfind
        · exact fun hfind => ⟨cd, p, hcd, hp, hfind⟩
      refine ((decides_namesFind hcons p iface cd.interfaces).bind_ite ih).mono fun b S h => ?_
      rw [h, List.exists_mem_cons_iff, hdecl S]
    · -- `c` is no class with a parent, so it declares nothing
      rename_i hnot
      have hnone : ∀ S, ¬ t.DeclaresIn S c iface := by
        rintro S ⟨cd, p, hcd, hp, -⟩
        exact hnot cd p hcd hp
      refine ih.mono fun b S h => ?_
      rw [h, List.exists_mem_cons_iff]
      exact ⟨.inr, fun h' => h'.resolve_left (hnone S)⟩

lemma decides_implementsIface (c iface : Nat) :
    Decides t (implementsIface t c iface) fun b S => (b = true ↔ t.ImplementsIn S c iface) := by
  refine (decides_classChain hcons c).bind (fun L => decides_anyImplements hcons iface L)
    fun L b S hL hb => hb.trans ?_
  constructor
  · rintro ⟨d, hd, hdd⟩
    exact ⟨d, (hL d).1 hd, hdd⟩
  · rintro ⟨d, hd, hdd⟩
    exact ⟨d, (hL d).2 hd, hdd⟩

lemma decides_resolveNamed (n : Nat) (x : Ident) :
    Decides t (resolveNamed t n x) fun r S => ∀ d, r = some d ↔ t.NamesIn S n x.name d := by
  refine ((decides_findDecl hcons n x.name).bind_pure fun r =>
    r.filter fun d => (t.kindAt d).isTypeDecl).mono ?_
  rintro _ S ⟨r, rfl, hr⟩ d
  rw [Option.filter_eq_some_iff]
  constructor
  · rintro ⟨rfl, hd⟩
    exact ⟨hr, hd⟩
  · rintro ⟨hf, hd⟩
    exact ⟨hr.unique hf, hd⟩

/-- Where names are bound to their declarations, equivalence goes by names. -/
lemma decides_equivalent (n : Nat) (a b : Ty) :
    Decides t (equivalent t n a b) fun r _ => r = a.sameAs b := by
  refine Decides.of_keepsWell (keepsWell_of_steps hcons fun h => h.equivalent n a b) fun m => ?_
  obtain ⟨r, m', ds, hr, -⟩ := lookup_equivalent t n a b m
  refine ⟨r, m', ds, hr, fun hw _ _ => ?_⟩
  have hrun := equivalent_run_eq_equivByName n a b m hw.2
  rw [hr.run_eq, Ty.equivByName_eq_sameAs] at hrun
  exact hrun

/-- A run of `compatible` answers whether the types are compatible in the tables it ends with,
and in every table grown from them. -/
lemma decides_compatible (n : Nat) (a b : Ty) :
    Decides t (compatible t n a b) fun r S => (r = true ↔ t.CompatibleIn S n a b) := by
  unfold compatible
  split
  · rename_i he
    exact Decides.pure fun S =>
      iff_of_true rfl (Tree.compatibleIn_of_isError (by simpa using he))
  rename_i he
  obtain ⟨ha, hb⟩ : a.isError = false ∧ b.isError = false := by simpa using he
  split
  · rename_i hn
    exact Decides.pure fun S => (Tree.compatibleIn_iff_of_isNull ha hb hn).symm
  rename_i hn
  have hsame : Decides t (equivalent t n a b) fun r _ => (r = true ↔ a.sameAs b = true) :=
    (decides_equivalent hcons n a b).mono fun r _ h => by rw [h]
  refine (hsame.bind_ite ?_).mono fun r S h =>
    h.trans (Tree.compatibleIn_iff ha hb (Bool.eq_false_iff.2 hn)).symm
  -- a class where one of its superclasses, or an interface one of them implements, is expected
  split
  · rename_i x y
    refine (decides_resolveNamed hcons n x).bind
      (P := fun rx r S => r = true ↔
        ∃ c d, rx = some c ∧ t.NamesIn S n y.name d ∧ t.SubtypeIn S c d)
      (fun rx => (decides_resolveNamed hcons n y).bind
        (P := fun ry r S => r = true ↔ ∃ c d, rx = some c ∧ ry = some d ∧ t.SubtypeIn S c d)
        (fun ry => ?_) fun ry r S hry h => by rw [h]; simp only [hry])
      fun rx r S hrx h => by rw [h, Tree.namedSubtypeIn_named_iff]; simp only [hrx]
    split
    · rename_i c d
      refine Decides.mono (Q := fun r S => r = true ↔ t.SubtypeIn S c d) ?_ fun r S h => by simp [h]
      split
      · rename_i hc
        exact Decides.pure fun S =>
          iff_of_false Bool.false_ne_true (Tree.not_subtypeIn_of_isNone hc)
      rename_i hc
      have hc : (t.kindAt c).cls?.isSome = true := by simpa [Option.isSome_iff_ne_none] using hc
      split
      · rename_i hd
        exact (decides_isSubclassOf hcons c d).mono fun r S h =>
          h.trans (Tree.subtypeIn_iff_of_class hc hd).symm
      rename_i hd
      split
      · rename_i hi
        exact (decides_implementsIface hcons c d).mono fun r S h =>
          h.trans (Tree.subtypeIn_iff_of_iface hc (Bool.eq_false_iff.2 hd) hi).symm
      · rename_i hi
        exact Decides.pure fun S => iff_of_false Bool.false_ne_true
          (Tree.not_subtypeIn_of_kind (Bool.eq_false_iff.2 hd) (Bool.eq_false_iff.2 hi))
    · rename_i hnot
      refine Decides.pure fun S => iff_of_false Bool.false_ne_true ?_
      rintro ⟨c, d, rfl, rfl, -⟩
      exact hnot c d rfl rfl
  · rename_i hnot
    exact Decides.pure fun S => iff_of_false Bool.false_ne_true (Tree.not_namedSubtypeIn hnot)

/-- Compatibility is a preorder away from the error type. From every memory a session reaches,
`compatible` answers yes exactly when the types are compatible in the tables its run ends with; it
answers yes for any type against itself; and when, from there, it answers yes for `a` against `b`
and then for `b` against `c`, with `b` not the error type, it answers yes for `a` against `c`
next. -/
theorem compatible_preorder {cfg : Config} {m : Memo} (hm : m.Reached t cfg) :
    (∀ n a b, ((compatible t n a b).run m).1 = true ↔
      t.CompatibleIn ((compatible t n a b).run m).2.scopes n a b) ∧
    (∀ n a, ((compatible t n a a).run m).1 = true) ∧
      ∀ n a b c, b ≠ .error → ((compatible t n a b).run m).1 = true →
        ((compatible t n b c).run ((compatible t n a b).run m).2).1 = true →
        ((compatible t n a c).run ((compatible t n b c).run ((compatible t n a b).run m).2).2).1 =
          true := by
  have hw := hm.wellKept hcons
  refine ⟨fun n a b => ?_, fun n a => ?_, fun n a b c hb hab hbc => ?_⟩
  · obtain ⟨-, -, hq⟩ := (decides_compatible hcons n a b).run hw
    exact hq _ (Memo.Grown.refl t _)
  · obtain ⟨-, -, hq⟩ := (decides_compatible hcons n a a).run hw
    exact (hq _ (Memo.Grown.refl t _)).2 (Tree.CompatibleIn.refl a)
  · obtain ⟨hw₁, -, hq₁⟩ := (decides_compatible hcons n a b).run hw
    obtain ⟨hw₂, hg₂, hq₂⟩ := (decides_compatible hcons n b c).run hw₁
    obtain ⟨-, hg₃, hq₃⟩ := (decides_compatible hcons n a c).run hw₂
    -- both answers still hold in the tables the third run ends with
    have hab' := (hq₁ _ (hg₂.trans hg₃)).1 hab
    have hbc' := (hq₂ _ hg₃).1 hbc
    have hb' : b.isError = false := by
      cases b <;> simp_all [Ty.isError]
    exact (hq₃ _ (Memo.Grown.refl t _)).2 (hab'.trans hb' hbc')

end Consistent

/-- Three classes, each extending the one before: once the program's scope is prepared, `C` stands
for `B` and `B` for `A`, and so `C` stands for `A`. -/
theorem inheritedFields_compatible_preorder :
    Tree.inheritedFields.Consistent ∧
      (Query.sessionEnd Tree.inheritedFields {} [.prepareScope 6]).Reached
        Tree.inheritedFields {} ∧
      Ty.named ⟨"B", {}⟩ ≠ .error ∧
      ((compatible Tree.inheritedFields 6 (.named ⟨"C", {}⟩) (.named ⟨"B", {}⟩)).run
        (Query.sessionEnd Tree.inheritedFields {} [.prepareScope 6])).1 = true ∧
      ((compatible Tree.inheritedFields 6 (.named ⟨"B", {}⟩) (.named ⟨"A", {}⟩)).run
        ((compatible Tree.inheritedFields 6 (.named ⟨"C", {}⟩) (.named ⟨"B", {}⟩)).run
          (Query.sessionEnd Tree.inheritedFields {} [.prepareScope 6])).2).1 = true ∧
      ((compatible Tree.inheritedFields 6 (.named ⟨"C", {}⟩) (.named ⟨"A", {}⟩)).run
        ((compatible Tree.inheritedFields 6 (.named ⟨"B", {}⟩) (.named ⟨"A", {}⟩)).run
          ((compatible Tree.inheritedFields 6 (.named ⟨"C", {}⟩) (.named ⟨"B", {}⟩)).run
            (Query.sessionEnd Tree.inheritedFields {} [.prepareScope 6])).2).2).1 = true := by
  have hcons : Tree.inheritedFields.Consistent := by decide
  have hm : (Query.sessionEnd Tree.inheritedFields {} [.prepareScope 6]).Reached
      Tree.inheritedFields {} := ⟨_, rfl⟩
  -- the session prepares the program's scope, which binds the three classes
  have hprog : (Query.sessionEnd Tree.inheritedFields {} [.prepareScope 6]).scopes[6]? =
      some (Tree.inheritedFields.declaredScope [1, 3, 5]) := by
    have hprep : Runs (prepareScope Tree.inheritedFields 6) (Memo.fresh none) ()
        { Memo.fresh none with
          scopes :=
            (Memo.fresh none).scopes.insert 6 (Tree.inheritedFields.declaredScope [1, 3, 5]) }
        (Tree.inheritedFields.ownConflicts [1, 3, 5] ++ []) :=
      runs_prepareWithin_build (by simp [Memo.fresh]) rfl List.not_mem_nil
        (Tree.runs_declareEntries_declared _ [1, 3, 5] _) (runs_inheritWithin_of_cls_none rfl)
    have hans := hprep.bind (f := fun _ => (do
      return Reply.bindings? ((← DecafCheck.preparedScope 6).map Scope.bindings) : AnalysisM Reply))
      (Runs.bind_eq (runs_preparedScope 6 _) (Runs.pure _ _) rfl)
    rw [Query.sessionEnd, Query.mapM_answered_run_snd]
    show (((Query.prepareScope 6).answer Tree.inheritedFields {}).run
      (Memo.fresh none)).2.scopes[6]? = _
    unfold Query.answer
    rw [hans.run_eq]
    simp
  -- in every table grown from there, `C` extends `B` and `B` extends `A`
  have hsub : ∀ m, (Query.sessionEnd Tree.inheritedFields {} [.prepareScope 6]).Grown
      Tree.inheritedFields m →
      Tree.inheritedFields.CompatibleIn m.scopes 6 (.named ⟨"C", {}⟩) (.named ⟨"B", {}⟩) ∧
        Tree.inheritedFields.CompatibleIn m.scopes 6 (.named ⟨"B", {}⟩) (.named ⟨"A", {}⟩) := by
    intro m hg
    have hprepared : Tree.inheritedFields.PreparedIn
        (Query.sessionEnd Tree.inheritedFields {} [.prepareScope 6]).scopes 6 :=
      .inl (by simp [Std.TreeMap.contains_eq_isSome_getElem?, hprog])
    have h6 : m.scopes[6]? = some (Tree.inheritedFields.declaredScope [1, 3, 5]) := by
      rw [Tree.getElem?_eq_of_grown hg hprepared, hprog]
    have hfinds : ∀ x d, Tree.inheritedFields.firstDecl [1, 3, 5] x = some d →
        Tree.inheritedFields.FindsIn m.scopes 6 x (some d) := fun x d hd =>
      .here (.inl (by simp [Std.TreeMap.contains_eq_isSome_getElem?, h6]))
        (by rw [h6, Option.bind_some, Tree.lookup_declaredScope, hd])
    -- each `extends` name finds, from the program, the class before
    have h53 : Tree.inheritedFields.SuperStepIn m.scopes 5 3 :=
      .of_findsIn rfl (hfinds "B" 3 rfl) rfl
    have h31 : Tree.inheritedFields.SuperStepIn m.scopes 3 1 :=
      .of_findsIn rfl (hfinds "A" 1 rfl) rfl
    exact ⟨.of_subclassIn ⟨hfinds "C" 5 rfl, rfl⟩ ⟨hfinds "B" 3 rfl, rfl⟩ rfl rfl (.single h53),
      .of_subclassIn ⟨hfinds "B" 3 rfl, rfl⟩ ⟨hfinds "A" 1 rfl, rfl⟩ rfl rfl (.single h31)⟩
  obtain ⟨hw₁, hg₁, hq₁⟩ :=
    (decides_compatible hcons 6 (.named ⟨"C", {}⟩) (.named ⟨"B", {}⟩)).run (hm.wellKept hcons)
  obtain ⟨-, hg₂, hq₂⟩ := (decides_compatible hcons 6 (.named ⟨"B", {}⟩) (.named ⟨"A", {}⟩)).run hw₁
  have hab := (hq₁ _ (Memo.Grown.refl _ _)).2 (hsub _ hg₁).1
  have hbc := (hq₂ _ (Memo.Grown.refl _ _)).2 (hsub _ (hg₁.trans hg₂)).2
  exact ⟨hcons, hm, by decide, hab, hbc,
    (compatible_preorder hcons hm).2.2 6 _ _ _ (by decide) hab hbc⟩


end Analysis

end DecafCheck
