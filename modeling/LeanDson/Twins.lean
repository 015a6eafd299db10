import LeanDson.Programs

/-! Two objects of two runs that differ in nothing but their gaps. Questions are answered alike, and insertions and
lookups leave twins. -/

namespace LeanDson

open ByteSink

/-! ### Twins -/

/-- A double as its constructor leaves it once it has its key: in host order, with five bytes left over. -/
def Dson.doubleOver (e : Endian) (h : Header) (x : Binary64) (rest : Bytes) : Dson :=
  { Dson.uninit h with
    buf := .own (bytesOf e 8 x.toNat ++ rest)
    bufSize := bufSizeForDouble
    wasBufAllocation := true
    dsonKind := .oneObjectInDataBuf }

/-- The same double over different left-over bytes. -/
def Unwritten (e : Endian) (x : Binary64) (d₁ d₂ : Dson) : Prop :=
  ∃ h rest₁ rest₂, h.isHostOrder e = true ∧ h.dataTypeOf e = TypesMap.double ∧ rest₁.length = 5 ∧ rest₂.length = 5 ∧
    d₁ = Dson.doubleOver e h x rest₁ ∧ d₂ = Dson.doubleOver e h x rest₂

mutual

/-- Two objects, with their children in order, that differ at most in their gaps. -/
def Twin (e : Endian) : Gaps → DsonObj → DsonObj → Prop
  | g, .dson d₁ children₁, .dson d₂ children₂ =>
      (d₁ = d₂ ∧ KeyMap.Sorted children₁ ∧ TwinAll e g children₁ children₂) ∨
        ∃ x, g = .behind x ∧ Unwritten e x d₁ d₂ ∧ children₁ = [] ∧ children₂ = []
  | _, o₁, o₂ => o₁ = o₂

def TwinAll (e : Endian) : Gaps → ObjMap → ObjMap → Prop
  | _, [], [] => True
  | g, (key₁, o₁) :: rest₁, (key₂, o₂) :: rest₂ =>
      key₁ = key₂ ∧ Twin e (g.child key₁) o₁ o₂ ∧ TwinAll e g rest₁ rest₂
  | _, _, _ => False

end

/-- Two outcomes with the same answer and memory, and twin objects. The gaps may depend on the answer. -/
def TwinResults (e : Endian) {α : Type} (g : α → Gaps) (r₁ r₂ : Option (α × DsonObj × Mem)) : Prop :=
  Option.Rel (fun p q => p.1 = q.1 ∧ Twin e (g p.1) p.2.1 q.2.1 ∧ p.2.2 = q.2.2) r₁ r₂

section

variable {e : Endian}

theorem rel_refl {α : Type} {r : α → α → Prop} (h : ∀ a, r a a) (x : Option α) : Option.Rel r x x := by
  cases x with
  | none => exact .none
  | some a => exact .some (h a)

theorem rel_bind_some {α β γ δ : Type} {r : α → β → Prop} {s : γ → δ → Prop} {x : Option α} {y : Option β}
    {f : α → Option γ} {g : β → Option δ} (h : Option.Rel r x y)
    (hf : ∀ a b, x = some a → r a b → Option.Rel s (f a) (g b)) : Option.Rel s (x.bind f) (y.bind g) := by
  cases h with
  | none => exact .none
  | some hab => exact hf _ _ rfl hab

theorem rel_bind {α β γ δ : Type} {r : α → β → Prop} {s : γ → δ → Prop} {x : Option α} {y : Option β}
    {f : α → Option γ} {g : β → Option δ} (h : Option.Rel r x y) (hf : ∀ a b, r a b → Option.Rel s (f a) (g b)) :
    Option.Rel s (x.bind f) (y.bind g) := rel_bind_some h fun a b _ => hf a b

/-- What holds of the first result holds when it is gone on with. -/
theorem rel_bind_all {α β γ δ : Type} {r : α → β → Prop} {s : γ → δ → Prop} {x : Option α} {y : Option β}
    {f : α → Option γ} {g : β → Option δ} (h : Option.Rel r x y) {p : α → Bool} (hall : x.all p = true)
    (hf : ∀ a b, p a = true → r a b → Option.Rel s (f a) (g b)) : Option.Rel s (x.bind f) (y.bind g) :=
  rel_bind_some h fun a b hx => hf a b (by rwa [hx, Option.all_some] at hall)

theorem rel_map {α β γ δ : Type} {r : α → β → Prop} {s : γ → δ → Prop} {x : Option α} {y : Option β}
    {f : α → γ} {g : β → δ} (h : Option.Rel r x y) (hf : ∀ a b, r a b → s (f a) (g b)) :
    Option.Rel s (x.map f) (y.map g) := by
  cases h with
  | none => exact .none
  | some hab => exact .some (hf _ _ hab)

/-- The children of two twins. -/
structure TwinMaps (e : Endian) (g : Gaps) (children₁ children₂ : ObjMap) : Prop where
  sorted : KeyMap.Sorted children₁
  all : TwinAll e g children₁ children₂

theorem TwinMaps.nil (g : Gaps) : TwinMaps e g [] [] := ⟨KeyMap.sorted_nil, by simp only [TwinAll]⟩

theorem TwinMaps.dson {g : Gaps} {children₁ children₂ : ObjMap} (h : TwinMaps e g children₁ children₂) (d : Dson) :
    Twin e g (.dson d children₁) (.dson d children₂) := by
  rw [Twin]
  exact Or.inl ⟨rfl, h.sorted, h.all⟩

theorem Unwritten.twin {x : Binary64} {d₁ d₂ : Dson} (h : Unwritten e x d₁ d₂) :
    Twin e (.behind x) (.dson d₁ []) (.dson d₂ []) := by
  rw [Twin]
  exact Or.inr ⟨x, rfl, h, rfl, rfl⟩

theorem Twin.custom {g : Gaps} {o : DsonObj} (ho : ∀ d children, o ≠ .dson d children) : Twin e g o o := by
  cases o with
  | dson d children => exact absurd rfl (ho d children)
  | string _ => simp only [Twin]
  | route _ => simp only [Twin]

/-- Twins are the same custom object, or one object with twin children, or a double with a gap. -/
theorem Twin.cases {g : Gaps} {o₁ o₂ : DsonObj} (h : Twin e g o₁ o₂) :
    (o₁ = o₂ ∧ ∀ d children, o₁ ≠ .dson d children) ∨
      (∃ d children₁ children₂, o₁ = .dson d children₁ ∧ o₂ = .dson d children₂ ∧ TwinMaps e g children₁ children₂) ∨
      ∃ x d₁ d₂, g = .behind x ∧ Unwritten e x d₁ d₂ ∧ o₁ = .dson d₁ [] ∧ o₂ = .dson d₂ [] := by
  cases o₁ with
  | dson d₁ children₁ =>
      cases o₂ with
      | dson d₂ children₂ =>
          rw [Twin] at h
          rcases h with ⟨rfl, hsorted, hall⟩ | ⟨x, hg, hd, rfl, rfl⟩
          · exact Or.inr (Or.inl ⟨_, _, _, rfl, rfl, hsorted, hall⟩)
          · exact Or.inr (Or.inr ⟨x, _, _, hg, hd, rfl, rfl⟩)
      | string _ => simp [Twin] at h
      | route _ => simp [Twin] at h
  | string _ =>
      rw [Twin] at h
      · exact Or.inl ⟨h, by simp⟩
      · simp
  | route _ =>
      rw [Twin] at h
      · exact Or.inl ⟨h, by simp⟩
      · simp

/-! ### Answers -/

theorem Twin.key {g : Gaps} {o₁ o₂ : DsonObj} (h : Twin e g o₁ o₂) (m : Mem) : o₁.key e m = o₂.key e m := by
  obtain ⟨rfl, -⟩ | ⟨d, _, _, rfl, rfl, -⟩ | ⟨x, d₁, d₂, -, ⟨_, _, _, -, -, -, -, rfl, rfl⟩, rfl, rfl⟩ := h.cases
  · rfl
  · rfl
  · rfl

theorem Twin.dataType {g : Gaps} {o₁ o₂ : DsonObj} (h : Twin e g o₁ o₂) (m : Mem) :
    o₁.dataType e m = o₂.dataType e m := by
  obtain ⟨rfl, -⟩ | ⟨d, _, _, rfl, rfl, -⟩ | ⟨x, d₁, d₂, -, ⟨_, _, _, -, -, -, -, rfl, rfl⟩, rfl, rfl⟩ := h.cases
  · rfl
  · rfl
  · rfl

mutual

theorem Twin.dataSize {g : Gaps} (m : Mem) : ∀ {o₁ o₂ : DsonObj}, Twin e g o₁ o₂ → o₁.dataSize e m = o₂.dataSize e m
  | .dson d₁ children₁, .dson d₂ children₂, h => by
      rw [Twin] at h
      rcases h with ⟨rfl, -, hall⟩ | ⟨x, -, ⟨_, _, _, -, -, -, -, rfl, rfl⟩, rfl, rfl⟩
      · rw [DsonObj.dataSize, DsonObj.dataSize, hall.dataSizes]
      · rfl
  | .string _, _, h => by
      rw [Twin] at h
      · rw [h]
      · simp
  | .route _, _, h => by
      rw [Twin] at h
      · rw [h]
      · simp
  | .dson _ _, .string _, h => by simp [Twin] at h
  | .dson _ _, .route _, h => by simp [Twin] at h

theorem TwinAll.dataSizes {g : Gaps} (m : Mem) : ∀ {children₁ children₂ : ObjMap}, TwinAll e g children₁ children₂ →
    DsonObj.dataSizes e m children₁ = DsonObj.dataSizes e m children₂
  | [], [], _ => rfl
  | (_, _) :: _, (_, _) :: _, h => by
      rw [TwinAll] at h
      rw [DsonObj.dataSizes, DsonObj.dataSizes, h.2.1.dataSize, h.2.2.dataSizes]
  | [], _ :: _, h => by simp [TwinAll] at h
  | _ :: _, [], h => by simp [TwinAll] at h

end

mutual

theorem Twin.depth {g : Gaps} : ∀ {o₁ o₂ : DsonObj}, Twin e g o₁ o₂ → o₁.depth = o₂.depth
  | .dson d₁ children₁, .dson d₂ children₂, h => by
      rw [Twin] at h
      rcases h with ⟨rfl, -, hall⟩ | ⟨x, -, -, rfl, rfl⟩
      · rw [DsonObj.depth, DsonObj.depth, hall.depths]
      · rfl
  | .string _, _, h => by
      rw [Twin] at h
      · rw [h]
      · simp
  | .route _, _, h => by
      rw [Twin] at h
      · rw [h]
      · simp
  | .dson _ _, .string _, h => by simp [Twin] at h
  | .dson _ _, .route _, h => by simp [Twin] at h

theorem TwinAll.depths {g : Gaps} : ∀ {children₁ children₂ : ObjMap}, TwinAll e g children₁ children₂ →
    DsonObj.depths children₁ = DsonObj.depths children₂
  | [], [], _ => rfl
  | (_, _) :: _, (_, _) :: _, h => by
      rw [TwinAll] at h
      rw [DsonObj.depths, DsonObj.depths, h.2.1.depth, h.2.2.depths]
  | [], _ :: _, h => by simp [TwinAll] at h
  | _ :: _, [], h => by simp [TwinAll] at h

end

/-! ### Changes -/

/-- An operation on the object itself that does not look at the children. -/
theorem TwinMaps.results {g : Gaps} {children₁ children₂ : ObjMap} (h : TwinMaps e g children₁ children₂)
    (r : Option (Dson × Mem)) :
    Option.Rel (fun p q => Twin e g p.1 q.1 ∧ p.2 = q.2) (r.map fun p => (DsonObj.dson p.1 children₁, p.2))
      (r.map fun p => (DsonObj.dson p.1 children₂, p.2)) := by
  cases r with
  | none => exact .none
  | some p => exact .some ⟨h.dson p.1, rfl⟩

theorem Unwritten.toHost {x : Binary64} {d₁ d₂ : Dson} (h : Unwritten e x d₁ d₂) (m : Mem) :
    d₁.toHost e m = some (d₁, m) ∧ d₂.toHost e m = some (d₂, m) := by
  obtain ⟨h, _, _, hhost, -, -, -, rfl, rfl⟩ := h
  have hread : ∀ rest, Dson.isHostOrder e (Dson.doubleOver e h x rest) m = some true := fun _ =>
    congrArg some hhost
  constructor <;> rw [Dson.toHost, hread] <;> rfl

theorem Unwritten.setKey {x : Binary64} {d₁ d₂ : Dson} (h : Unwritten e x d₁ d₂) (k : Int) (m : Mem) :
    ∃ d₁' d₂', d₁.setKey e m k = some (d₁', m) ∧ d₂.setKey e m k = some (d₂', m) ∧ Unwritten e x d₁' d₂' := by
  obtain ⟨h, rest₁, rest₂, hhost, htype, hlen₁, hlen₂, rfl, rfl⟩ := h
  exact ⟨_, _, rfl, rfl, h.setKey e k, rest₁, rest₂, hhost, (Header.dataTypeOf_setKey h k).trans htype, hlen₁, hlen₂,
    rfl, rfl⟩

theorem Dson.setDataTypeInternal_state {d : Dson} {m : Mem} {type : Int} {p : Dson × Mem}
    (h : d.setDataTypeInternal e m type = some p) : p.1.state = d.state := by
  obtain ⟨h₀, hread, hset⟩ := Option.bind_eq_some_iff.mp h
  obtain ⟨d', m', hset', -, hd', -⟩ := Dson.setHeader_read hread (h₀.setDataType e type)
  cases hset.symm.trans hset'
  rw [hd']

theorem Twin.setKey {g : Gaps} {o₁ o₂ : DsonObj} (h : Twin e g o₁ o₂) (k : Int) (m : Mem) :
    Option.Rel (fun p q => Twin e g p.1 q.1 ∧ p.2 = q.2) (o₁.setKey e m k) (o₂.setKey e m k) := by
  obtain ⟨rfl, ho⟩ | ⟨d, _, _, rfl, rfl, hall⟩ | ⟨x, d₁, d₂, rfl, hd, rfl, rfl⟩ := h.cases
  · cases o₁ with
    | dson d children => exact absurd rfl (ho d children)
    | string _ => exact .some ⟨Twin.custom (by simp), rfl⟩
    | route _ => exact .some ⟨Twin.custom (by simp), rfl⟩
  · have hresults := hall.results (d.setKey e m k)
    rw [Option.map_eq_bind, Option.map_eq_bind] at hresults
    exact hresults
  · obtain ⟨d₁', d₂', h₁, h₂, hd'⟩ := hd.setKey k m
    simp only [DsonObj.setKey, h₁, h₂]
    exact .some ⟨hd'.twin, rfl⟩

theorem Twin.toHost {g : Gaps} {o₁ o₂ : DsonObj} (h : Twin e g o₁ o₂) (m : Mem) :
    Option.Rel (fun p q => Twin e g p.1 q.1 ∧ p.2 = q.2) (o₁.toHost e m) (o₂.toHost e m) := by
  obtain ⟨rfl, ho⟩ | ⟨d, _, _, rfl, rfl, hall⟩ | ⟨x, d₁, d₂, rfl, hd, rfl, rfl⟩ := h.cases
  · cases o₁ with
    | dson d children => exact absurd rfl (ho d children)
    | string _ => exact .some ⟨h, rfl⟩
    | route _ => exact .some ⟨h, rfl⟩
  · have hresults := hall.results (d.toHost e m)
    rw [Option.map_eq_bind, Option.map_eq_bind] at hresults
    exact hresults
  · obtain ⟨h₁, h₂⟩ := hd.toHost m
    simp only [DsonObj.toHost, h₁, h₂]
    exact .some ⟨h, rfl⟩

/-! ### Children -/

@[simp] theorem Gaps.child_nowhere (key : Int) : Gaps.nowhere.child key = .nowhere := rfl

@[simp] theorem Gaps.child_insert_self (g : Gaps) (key : Int) (g' : Gaps) : (g.insert key g').child key = g' := by
  cases g with
  | inside children => rw [Gaps.insert, Gaps.child, KeyMap.find_insertOrAssign_self, Option.getD_some]
  | nowhere => simp [Gaps.insert, Gaps.child, KeyMap.find]
  | behind x => simp [Gaps.insert, Gaps.child, KeyMap.find]

theorem Gaps.child_insert_ne {key k : Int} (hne : k ≠ key) (g g' : Gaps) : (g.insert key g').child k = g.child k := by
  cases g with
  | inside children => rw [Gaps.insert, Gaps.child, KeyMap.find_insertOrAssign_ne hne, Gaps.child]
  | nowhere => simp [Gaps.insert, Gaps.child, KeyMap.find, hne]
  | behind x => simp [Gaps.insert, Gaps.child, KeyMap.find, hne]

theorem TwinAll.keys {g : Gaps} : ∀ {children₁ children₂ : ObjMap}, TwinAll e g children₁ children₂ →
    KeyMap.keys children₂ = KeyMap.keys children₁
  | [], [], _ => rfl
  | (_, _) :: _, (_, _) :: _, h => by
      rw [TwinAll] at h
      rw [KeyMap.keys_cons, KeyMap.keys_cons, h.2.2.keys, h.1]
  | [], _ :: _, h => by simp [TwinAll] at h
  | _ :: _, [], h => by simp [TwinAll] at h

/-- Only the gaps of the children count. -/
theorem TwinAll.congr {g g' : Gaps} : ∀ {children₁ children₂ : ObjMap}, TwinAll e g children₁ children₂ →
    (∀ k ∈ KeyMap.keys children₁, g'.child k = g.child k) → TwinAll e g' children₁ children₂
  | [], [], _, _ => by simp only [TwinAll]
  | (_, _) :: _, (_, _) :: _, h, hg => by
      rw [TwinAll] at h ⊢
      rw [hg _ List.mem_cons_self]
      exact ⟨h.1, h.2.1, h.2.2.congr fun k hk => hg k (List.mem_cons_of_mem _ hk)⟩
  | [], _ :: _, h, _ => by simp [TwinAll] at h
  | _ :: _, [], h, _ => by simp [TwinAll] at h

theorem TwinAll.insert {g g' : Gaps} {key : Int} {o₁ o₂ : DsonObj} (ho : Twin e (g'.child key) o₁ o₂)
    (hg : ∀ k ≠ key, g'.child k = g.child k) : ∀ {children₁ children₂ : ObjMap}, TwinAll e g children₁ children₂ →
    KeyMap.Sorted children₁ →
      TwinAll e g' (KeyMap.insertOrAssign key o₁ children₁) (KeyMap.insertOrAssign key o₂ children₂)
  | [], [], _, _ => by
      simp only [KeyMap.insertOrAssign, TwinAll]
      exact ⟨trivial, ho, trivial⟩
  | (k₁, c₁) :: rest₁, (k₂, c₂) :: rest₂, h, hs => by
      rw [TwinAll] at h
      obtain ⟨rfl, hc, hrest⟩ := h
      obtain ⟨hbelow, htail⟩ := KeyMap.sorted_cons.mp hs
      rw [KeyMap.insertOrAssign, KeyMap.insertOrAssign]
      split_ifs with hlt heq
      · have hall : TwinAll e g' ((k₁, c₁) :: rest₁) ((k₁, c₂) :: rest₂) := by
          refine TwinAll.congr (g := g) (by rw [TwinAll]; exact ⟨rfl, hc, hrest⟩) fun k hk => hg k ?_
          rcases List.mem_cons.mp hk with rfl | hk
          · exact ne_of_gt hlt
          · exact ne_of_gt (lt_trans hlt (hbelow k hk))
        rw [TwinAll]
        exact ⟨rfl, ho, hall⟩
      · subst heq
        rw [TwinAll]
        exact ⟨rfl, ho, hrest.congr fun k hk => hg k (ne_of_gt (hbelow k hk))⟩
      · rw [TwinAll, hg k₁ (Ne.symm heq)]
        exact ⟨rfl, hc, hrest.insert ho hg htail⟩
  | [], _ :: _, h, _ => by simp [TwinAll] at h
  | _ :: _, [], h, _ => by simp [TwinAll] at h

theorem TwinMaps.insert {g g' : Gaps} {key : Int} {o₁ o₂ : DsonObj} {children₁ children₂ : ObjMap}
    (h : TwinMaps e g children₁ children₂) (ho : Twin e (g'.child key) o₁ o₂) (hg : ∀ k ≠ key, g'.child k = g.child k) :
    TwinMaps e g' (KeyMap.insertOrAssign key o₁ children₁) (KeyMap.insertOrAssign key o₂ children₂) :=
  ⟨KeyMap.sorted_insertOrAssign h.sorted key o₁, h.all.insert ho hg h.sorted⟩

theorem TwinAll.find {g : Gaps} {key : Int} : ∀ {children₁ children₂ : ObjMap}, TwinAll e g children₁ children₂ →
    Option.Rel (Twin e (g.child key)) (KeyMap.find key children₁) (KeyMap.find key children₂)
  | [], [], _ => .none
  | (k₁, _) :: _, (_, _) :: _, h => by
      rw [TwinAll] at h
      obtain ⟨rfl, hc, hrest⟩ := h
      rw [KeyMap.find, KeyMap.find]
      split_ifs with heq
      · subst heq
        exact .some hc
      · exact hrest.find
  | [], _ :: _, h => by simp [TwinAll] at h
  | _ :: _, [], h => by simp [TwinAll] at h

/-- An operation on the child under a key, which may get new gaps. -/
theorem Twin.onChild {α : Type} {g : Gaps} {g' : α → Gaps} {key : Int} {o₁ o₂ : DsonObj} (h : Twin e g o₁ o₂) (m : Mem)
    {f₁ f₂ : DsonObj → Mem → Option (α × DsonObj × Mem)}
    (hf : ∀ {d : Dson} {children : ObjMap} {c₁ c₂ : DsonObj}, o₁ = .dson d children → KeyMap.find key children = some c₁ →
      Twin e (g.child key) c₁ c₂ → TwinResults e (fun a => (g' a).child key) (f₁ c₁ (d.inner m)) (f₂ c₂ (d.inner m)))
    (hg : ∀ a, ∀ k ≠ key, (g' a).child k = g.child k) :
    TwinResults e g' (DsonObj.onChild key f₁ o₁ m) (DsonObj.onChild key f₂ o₂ m) := by
  obtain ⟨rfl, ho⟩ | ⟨d, children₁, children₂, rfl, rfl, hall⟩ | ⟨x, d₁, d₂, rfl, hd, rfl, rfl⟩ := h.cases
  · cases o₁ with
    | dson d children => exact absurd rfl (ho d children)
    | string _ => exact .none
    | route _ => exact .none
  · refine rel_bind_some hall.all.find fun c₁ c₂ hfind hc => rel_bind (hf rfl hfind hc) ?_
    rintro ⟨a, c₁', inside⟩ ⟨_, c₂', _⟩ ⟨rfl, hc', rfl⟩
    exact .some ⟨rfl, (hall.insert hc' (hg a)).dson _, rfl⟩
  · exact .none

/-! ### Parsing, lookup and insertion -/

/-- A view has no gaps. -/
theorem Twin.view (g : Gaps) (d : Dson) : Twin e g (.dson d []) (.dson d []) := (TwinMaps.nil g).dson d

theorem TwinMaps.parseLoop {g : Gaps} (p : BufPtr) (m : Mem) (fuel : Nat) : ∀ (notUsed ptr : Int) {children₁ children₂ : ObjMap},
    TwinMaps e g children₁ children₂ → Option.Rel (fun p q => p.1 = q.1 ∧ TwinMaps e g p.2 q.2)
      (Dson.parseLoop e p m fuel notUsed ptr children₁) (Dson.parseLoop e p m fuel notUsed ptr children₂) := by
  induction fuel with
  | zero =>
      intro notUsed ptr children₁ children₂ h
      rw [Dson.parseLoop, Dson.parseLoop]
      split_ifs
      · exact .some ⟨rfl, h⟩
      · exact .none
  | succ fuel ih =>
      intro notUsed ptr children₁ children₂ h
      rw [Dson.parseLoop, Dson.parseLoop]
      split_ifs
      · exact .some ⟨rfl, h⟩
      · exact .none
      · refine rel_bind (rel_refl (r := Eq) (fun _ => rfl) _) ?_
        rintro obj _ rfl
        refine rel_bind (rel_refl (r := Eq) (fun _ => rfl) _) ?_
        rintro key _ rfl
        split_ifs
        · exact .some ⟨rfl, h⟩
        · refine rel_bind (rel_refl (r := Eq) (fun _ => rfl) _) ?_
          rintro size _ rfl
          split_ifs
          · exact .some ⟨rfl, h⟩
          · exact ih _ _ (h.insert (Twin.view _ obj) fun _ _ => rfl)

theorem TwinMaps.parseBuf {g : Gaps} {children₁ children₂ : ObjMap} (h : TwinMaps e g children₁ children₂) (d : Dson)
    (m : Mem) : Option.Rel (fun p q => p.1 = q.1 ∧ TwinMaps e g p.2 q.2) (d.parseBuf e children₁ m)
      (d.parseBuf e children₂ m) := by
  refine rel_bind (rel_refl (r := Eq) (fun _ => rfl) (d.dataType e m)) ?_
  rintro type _ rfl
  split_ifs
  · exact .some ⟨rfl, h⟩
  · refine rel_bind (h.parseLoop _ _ _ _ _) ?_
    rintro ⟨notUsed, map₁⟩ ⟨_, map₂⟩ ⟨rfl, hmap⟩
    dsimp only
    split_ifs
    · exact .some ⟨rfl, hmap⟩
    · exact .some ⟨rfl, hmap⟩

theorem TwinMaps.openAsContainer {g : Gaps} {children₁ children₂ : ObjMap} (h : TwinMaps e g children₁ children₂)
    (d : Dson) (m : Mem) : Option.Rel (fun p q => p.1 = q.1 ∧ TwinMaps e g p.2.1 q.2.1 ∧ p.2.2 = q.2.2)
      (d.openAsContainer e children₁ m) (d.openAsContainer e children₂ m) := by
  rw [Dson.openAsContainer, Dson.openAsContainer]
  cases d.dsonKind with
  | dsonContainer => exact .some ⟨rfl, h, rfl⟩
  | dataBufNeedParse =>
      refine rel_bind (h.parseBuf d m) ?_
      rintro ⟨d', map₁⟩ ⟨_, map₂⟩ ⟨rfl, hmap⟩
      exact .some ⟨rfl, hmap, rfl⟩
  | oneObjectInDataBuf =>
      dsimp only
      rw [Dson.oneObjectBufToContainer, Dson.oneObjectBufToContainer]
      cases d.data with
      | none => exact .some ⟨rfl, h, rfl⟩
      | some off =>
          refine rel_bind (rel_refl (r := Eq) (fun _ => rfl) (d.header m)) ?_
          rintro header _ rfl
          refine rel_bind (rel_refl (r := Eq) (fun _ => rfl) _) ?_
          rintro key _ rfl
          split_ifs
          · exact .some ⟨rfl, h, rfl⟩
          · refine rel_bind (rel_refl (r := Eq) (fun _ => rfl) _) ?_
            rintro ⟨d', m'⟩ _ rfl
            exact .some ⟨rfl, h.insert (Twin.view _ _) fun _ _ => rfl, rfl⟩

/-- Whether an insertion takes place shows in the state. -/
theorem TwinMaps.insertInternal {g g' : Gaps} {key : Int} {obj₁ obj₂ : DsonObj} {children₁ children₂ : ObjMap}
    (h : TwinMaps e g children₁ children₂) (hobj : Twin e g' obj₁ obj₂) (d : Dson) (m : Mem) :
    Option.Rel (fun p q => p.1 = q.1 ∧
        TwinMaps e (if p.1.state = .ready then g.insert key g' else g) p.2.1 q.2.1 ∧ p.2.2 = q.2.2)
      (d.insertInternal e key obj₁ children₁ m) (d.insertInternal e key obj₂ children₂ m) := by
  have hreset : ∃ d' map₁ map₂, (if d.state ≠ .ready then d.resetState children₁ else (d, children₁)) = (d', map₁) ∧
      (if d.state ≠ .ready then d.resetState children₂ else (d, children₂)) = (d', map₂) ∧
      TwinMaps e g map₁ map₂ := by
    rw [Dson.resetState, Dson.resetState]
    split_ifs
    · exact ⟨_, _, _, rfl, rfl, TwinMaps.nil g⟩
    · exact ⟨_, _, _, rfl, rfl, h⟩
    · exact ⟨_, _, _, rfl, rfl, h⟩
  obtain ⟨d', map₁, map₂, h₁, h₂, hmap⟩ := hreset
  rw [Dson.insertInternal, Dson.insertInternal, h₁, h₂]
  refine rel_bind (hmap.openAsContainer d' m) ?_
  rintro ⟨d, map₁, m⟩ ⟨_, map₂, _⟩ ⟨rfl, hmap, rfl⟩
  dsimp only
  by_cases hready : d.state = .ready
  · rw [if_neg (not_not.mpr hready), if_neg (not_not.mpr hready)]
    cases hset : d.setDataTypeInternal e m TypesMap.dsonContainer with
    | none => exact .none
    | some p =>
        have hstate : p.1.state = .ready := (Dson.setDataTypeInternal_state hset).trans hready
        refine .some ⟨rfl, ?_, rfl⟩
        rw [if_pos hstate]
        exact hmap.insert (by rw [Gaps.child_insert_self]; exact hobj) fun k hk => Gaps.child_insert_ne hk g g'
  · rw [if_pos hready, if_pos hready]
    refine .some ⟨rfl, ?_, rfl⟩
    rw [if_neg hready]
    exact hmap

/-- An emplacement in a double would read a header from its thirteen bytes. -/
theorem Dson.doubleOver_insertInternal {h : Header} {x : Binary64} {rest : Bytes} (hlen : rest.length = 5) (key : Int)
    (obj : DsonObj) (m : Mem) : (Dson.doubleOver e h x rest).insertInternal e key obj [] m = none := by
  have hblock : (bytesOf e 8 x.toNat ++ rest).length = 13 := by rw [List.length_append, bytesOf_length, hlen]
  have hread : Header.read (bytesOf e 8 x.toNat ++ rest) = none := Header.read_eq_none (by omega)
  have hkey : Dson.key e (Dson.ofHeaderAndBuf h (.view .owner 0)) { m with owner := bytesOf e 8 x.toNat ++ rest } =
      none := by
    rw [Dson.key, Dson.header, if_neg (by simp [Dson.headerIsLocal, Dson.ofHeaderAndBuf, Dson.uninit, BufPtr.isNull])]
    simp [Dson.ofHeaderAndBuf, BufPtr.tail, Mem.block, hread]
  have hopen : (Dson.doubleOver e h x rest).openAsContainer e [] m = none := by
    change (Dson.key e (Dson.ofHeaderAndBuf h (.view .owner 0)) { m with owner := bytesOf e 8 x.toNat ++ rest }).bind _ =
      none
    rw [hkey, Option.bind_none]
  change ((Dson.doubleOver e h x rest).openAsContainer e [] m).bind _ = none
  rw [hopen, Option.bind_none]

/-! ### Emplacements and lookups -/

/-- Objects of two runs of which a variable is known to have been given a key, or not. -/
structure TwinVars (e : Endian) (k : Known) (o₁ o₂ : DsonObj) : Prop where
  keyed : k.keyed = true → Twin e k.gaps o₁ o₂
  dataType (m : Mem) : o₁.dataType e m = o₂.dataType e m
  setKey (key : Int) (m : Mem) :
    Option.Rel (fun p q => Twin e k.gaps p.1 q.1 ∧ p.2 = q.2) (o₁.setKey e m key) (o₂.setKey e m key)

theorem Twin.vars {k : Known} {o₁ o₂ : DsonObj} (h : Twin e k.gaps o₁ o₂) : TwinVars e k o₁ o₂ :=
  ⟨fun _ => h, h.dataType, h.setKey⟩

/-- An insertion, with the state it leaves. -/
theorem Twin.inserted {g g' : Gaps} {d₁ d₂ : Dson} {children₁ children₂ : ObjMap} {obj₁ obj₂ : DsonObj}
    (h : Twin e g (.dson d₁ children₁) (.dson d₂ children₂)) (hobj : Twin e g' obj₁ obj₂) (key : Int) (m : Mem) :
    TwinResults e (fun a => if a.2 = .ready then g.insert a.1 g' else g)
      ((d₁.insertInternal e key obj₁ children₁ m).map fun p => ((key, p.1.state), .dson p.1 p.2.1, p.2.2))
      ((d₂.insertInternal e key obj₂ children₂ m).map fun p => ((key, p.1.state), .dson p.1 p.2.1, p.2.2)) := by
  obtain ⟨-, ho⟩ | ⟨d, _, _, h₁, h₂, hall⟩ | ⟨x, _, _, -, hd, h₁, h₂⟩ := h.cases
  · exact absurd rfl (ho d₁ children₁)
  · cases h₁
    cases h₂
    refine rel_map (hall.insertInternal hobj d₁ m) ?_
    rintro ⟨d₁, map₁, m₁⟩ ⟨_, map₂, _⟩ ⟨rfl, hmap, rfl⟩
    exact ⟨rfl, hmap.dson d₁, rfl⟩
  · obtain ⟨h, rest₁, rest₂, -, -, hlen₁, hlen₂, rfl, rfl⟩ := hd
    cases h₁
    cases h₂
    rw [Dson.doubleOver_insertInternal hlen₁, Dson.doubleOver_insertInternal hlen₂]
    exact .none

theorem DsonObj.emplaceAs_custom {o : DsonObj} (ho : ∀ d children, o ≠ .dson d children) (key : Option Int)
    (obj : DsonObj) (m : Mem) : DsonObj.emplaceAs e key obj o m = none := by
  cases o with
  | dson d children => exact absurd rfl (ho d children)
  | string _ =>
      cases key with
      | some key => rfl
      | none =>
          rw [DsonObj.emplaceAs]
          cases obj.key e m <;> rfl
  | route _ =>
      cases key with
      | some key => rfl
      | none =>
          rw [DsonObj.emplaceAs]
          cases obj.key e m <;> rfl

theorem DsonObj.emplaceAs_key (key : Int) (obj : DsonObj) (d : Dson) (children : ObjMap) (m : Mem) :
    DsonObj.emplaceAs e (some key) obj (.dson d children) m = (obj.setKey e m key).bind fun p =>
      (d.insertInternal e key p.1 children p.2).map fun q => ((key, q.1.state), .dson q.1 q.2.1, q.2.2) := by
  rw [DsonObj.emplaceAs, DsonObj.emplace]
  cases obj.setKey e m key with
  | none => rfl
  | some p =>
      simp only [Option.bind_eq_bind, Option.bind_some]
      cases d.insertInternal e key p.1 children p.2 <;> rfl

theorem DsonObj.emplaceAs_ptr (obj : DsonObj) (d : Dson) (children : ObjMap) (m : Mem) :
    DsonObj.emplaceAs e none obj (.dson d children) m = (obj.key e m).bind fun key =>
      (d.insertInternal e key obj children m).map fun q => ((key, q.1.state), .dson q.1 q.2.1, q.2.2) := by
  simp only [DsonObj.emplaceAs, DsonObj.emplacePtr]
  cases obj.key e m with
  | none => rfl
  | some key =>
      simp only [Option.bind_eq_bind, Option.bind_some]
      cases d.insertInternal e key obj children m <;> rfl

/-- An emplacement takes the object in where its answer is that the object is ready. -/
theorem Twin.emplaceAs {g : Gaps} {k : Known} {key : Option Int} {o₁ o₂ obj₁ obj₂ : DsonObj} (h : Twin e g o₁ o₂)
    (hobj : TwinVars e k obj₁ obj₂) (hkeyed : k.keyed = true ∨ key ≠ none) (m : Mem) :
    TwinResults e (fun a => if a.2 = .ready then g.insert a.1 k.gaps else g) (DsonObj.emplaceAs e key obj₁ o₁ m)
      (DsonObj.emplaceAs e key obj₂ o₂ m) := by
  have hdson : ∀ {d₁ d₂ : Dson} {children₁ children₂ : ObjMap}, Twin e g (.dson d₁ children₁) (.dson d₂ children₂) →
      TwinResults e (fun a => if a.2 = .ready then g.insert a.1 k.gaps else g)
        (DsonObj.emplaceAs e key obj₁ (.dson d₁ children₁) m) (DsonObj.emplaceAs e key obj₂ (.dson d₂ children₂) m) := by
    intro d₁ d₂ children₁ children₂ h
    cases key with
    | some key =>
        rw [DsonObj.emplaceAs_key, DsonObj.emplaceAs_key]
        refine rel_bind (hobj.setKey key m) ?_
        rintro ⟨obj₁, m⟩ ⟨obj₂, _⟩ ⟨htwin, rfl⟩
        exact h.inserted htwin key m
    | none =>
        have htwin := hobj.keyed (hkeyed.resolve_right (not_not.mpr rfl))
        rw [DsonObj.emplaceAs_ptr, DsonObj.emplaceAs_ptr, htwin.key]
        refine rel_bind (rel_refl (r := Eq) (fun _ => rfl) (obj₂.key e m)) ?_
        rintro key _ rfl
        exact h.inserted htwin key m
  obtain ⟨rfl, ho⟩ | ⟨d, children₁, children₂, rfl, rfl, -⟩ | ⟨x, d₁, d₂, rfl, -, rfl, rfl⟩ := h.cases
  · rw [DsonObj.emplaceAs_custom ho, DsonObj.emplaceAs_custom ho]
    exact .none
  · exact hdson h
  · exact hdson h

theorem TwinMaps.get {g : Gaps} {children₁ children₂ : ObjMap} (h : TwinMaps e g children₁ children₂) {d : Dson}
    (hkind : d.dsonKind ≠ .dataBufNeedParse) (key : Int) (m : Mem) :
    TwinResults e (fun _ => g) (DsonObj.get e key (.dson d children₁) m) (DsonObj.get e key (.dson d children₂) m) := by
  rw [DsonObj.get, DsonObj.get, if_neg hkind, if_neg hkind]
  simp only [Option.bind_eq_bind, Option.bind_some]
  split_ifs
  · exact .some ⟨rfl, h.dson d, rfl⟩
  · cases hd : d.dsonKind with
    | dataBufNeedParse => exact absurd hd hkind
    | oneObjectInDataBuf =>
        refine rel_bind (rel_refl (r := Eq) (fun _ => rfl) (d.key e m)) ?_
        rintro own _ rfl
        split_ifs
        · refine rel_bind (rel_refl (r := Eq) (fun _ => rfl) (d.toHost e m)) ?_
          rintro ⟨d, m⟩ _ rfl
          exact .some ⟨rfl, h.dson d, rfl⟩
        · exact .some ⟨rfl, h.dson d, rfl⟩
    | dsonContainer =>
        dsimp only
        rw [DsonObj.getInternal, DsonObj.getInternal]
        have hfind : Option.Rel (Twin e (g.child key)) (KeyMap.find key children₁) (KeyMap.find key children₂) := h.all.find
        revert hfind
        generalize KeyMap.find key children₁ = c₁
        generalize KeyMap.find key children₂ = c₂
        intro hfind
        cases hfind with
        | none => exact .some ⟨rfl, h.dson d, rfl⟩
        | some hc =>
            refine (h.dson d).onChild m (fun _ _ hc => ?_) fun _ _ _ => rfl
            refine rel_bind (hc.toHost _) ?_
            rintro ⟨c₁, m₁⟩ ⟨c₂, _⟩ ⟨htwin, rfl⟩
            exact .some ⟨rfl, htwin, rfl⟩

theorem Twin.get {g : Gaps} {o₁ o₂ : DsonObj} (h : Twin e g o₁ o₂) (key : Int) (m : Mem) :
    TwinResults e (fun _ => g) (DsonObj.get e key o₁ m) (DsonObj.get e key o₂ m) := by
  obtain ⟨rfl, ho⟩ | ⟨d, children₁, children₂, rfl, rfl, hall⟩ | ⟨x, d₁, d₂, rfl, hd, rfl, rfl⟩ := h.cases
  · cases o₁ with
    | dson d children => exact absurd rfl (ho d children)
    | string _ => exact .none
    | route _ => exact .none
  · by_cases hkind : d.dsonKind = .dataBufNeedParse
    · have hparse := hall.parseBuf d m
      generalize hp₁ : d.parseBuf e children₁ m = r₁ at hparse
      generalize hp₂ : d.parseBuf e children₂ m = r₂ at hparse
      cases hparse with
      | none =>
          rw [DsonObj.get, DsonObj.get, if_pos hkind, if_pos hkind, hp₁, hp₂]
          exact .none
      | @some p q hpq =>
          obtain ⟨d', map₁⟩ := p
          obtain ⟨_, map₂⟩ := q
          obtain ⟨rfl, hmap⟩ := hpq
          rw [get_parse hkind hp₁, get_parse hkind hp₂]
          split_ifs with hready
          · refine hmap.get ?_ key m
            rcases Dson.parseBuf_cases hp₁ with ⟨rfl, -, -⟩ | ⟨-, notUsed, -, ⟨-, rfl⟩ | ⟨-, rfl⟩⟩
            · simp
            · cases hready
            · simp
          · exact .some ⟨rfl, hmap.dson d', rfl⟩
    · exact hall.get hkind key m
  · obtain ⟨hhost₁, hhost₂⟩ := hd.toHost m
    have hkey : d₁.key e m = d₂.key e m := h.key m
    have hget : ∀ {d : Dson}, d.dsonKind = .oneObjectInDataBuf → d.state = .ready → d.toHost e m = some (d, m) →
        DsonObj.get e key (.dson d []) m = (d.key e m).map fun own =>
          (if own = key then .self else .null, .dson d [], m) := by
      intro d hkind hready hhost
      rw [DsonObj.get, if_neg (by simp [hkind])]
      simp only [Option.bind_eq_bind, Option.bind_some, hready, ne_eq, not_true_eq_false, if_false, hkind, hhost]
      cases d.key e m with
      | none => rfl
      | some own =>
          simp only [Option.bind_some, Option.map_some]
          split_ifs <;> rfl
    have htwin := hd.twin
    obtain ⟨h, rest₁, rest₂, -, -, -, -, rfl, rfl⟩ := hd
    rw [hget rfl rfl hhost₁, hget rfl rfl hhost₂, hkey]
    refine rel_map (rel_refl (r := Eq) (fun _ => rfl) _) ?_
    rintro own _ rfl
    exact ⟨rfl, htwin, rfl⟩

end

end LeanDson
