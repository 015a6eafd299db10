import LeanDson.TwinEmission

/-! Two runs of one program over different uninitialised memory. Nothing of it can be seen as long as no `Dson` is
built from an empty string, every other one built from a value is given its key before anything but its type is asked
for, and an emission that gets to a double that has not been converted is one to network order, which has to be
another order than that of the host, and the double is finite. -/

namespace LeanDson

open ByteSink

section

variable {e : Endian}

/-! ### Steps -/

theorem Gaps.child_left {o c : DsonObj} {key : Int} (hc : o.under key = some c) (g : Gaps) :
    (g.left e o).child key = (g.child key).left e c := by
  cases g with
  | nowhere => rfl
  | behind x =>
      rw [Gaps.left]
      split_ifs <;> rfl
  | inside children =>
      rw [Gaps.left, Gaps.child, Gaps.child]
      induction children with
      | nil => rfl
      | cons p rest ih =>
          obtain ⟨k, g⟩ := p
          rw [KeyMap.find]
          by_cases heq : key = k
          · subst heq
            rw [Gaps.leftAll, hc, if_pos rfl]
            simp [KeyMap.find]
          · rw [if_neg heq, Gaps.leftAll]
            cases o.under k with
            | none => exact ih
            | some c' =>
                dsimp only
                rw [KeyMap.find, if_neg heq]
                exact ih

mutual

/-- A double that is out of host order has been converted. -/
theorem Twin.left : ∀ {g : Gaps} {o₁ o₂ : DsonObj}, Twin e g o₁ o₂ → Twin e (g.left e o₁) o₁ o₂
  | g, .dson d₁ children₁, .dson d₂ children₂, h => by
      rw [Twin] at h ⊢
      rcases h with ⟨rfl, hs, hall⟩ | ⟨x, rfl, hd, rfl, rfl⟩
      · exact Or.inl ⟨rfl, hs, hall.left d₁ children₁ fun k o hmem => KeyMap.find_of_mem hs hmem⟩
      · have hrests : DsonObj.restsInHostOrder e (.dson d₁ []) = true := by
          obtain ⟨h, rest₁, rest₂, hhost, -, -, -, rfl, rfl⟩ := hd
          exact hhost
        refine Or.inr ⟨x, ?_, hd, rfl, rfl⟩
        rw [Gaps.left, if_pos hrests]
  | _, .string _, _, h => by
      rw [Twin] at h ⊢
      · exact h
      · simp
      · simp
  | _, .route _, _, h => by
      rw [Twin] at h ⊢
      · exact h
      · simp
      · simp
  | _, .dson _ _, .string _, h => by simp [Twin] at h
  | _, .dson _ _, .route _, h => by simp [Twin] at h

theorem TwinAll.left (d : Dson) (children : ObjMap) : ∀ {g : Gaps} {rest₁ rest₂ : ObjMap}, TwinAll e g rest₁ rest₂ →
    (∀ k o, (k, o) ∈ rest₁ → KeyMap.find k children = some o) → TwinAll e (g.left e (.dson d children)) rest₁ rest₂
  | _, [], [], _, _ => by simp only [TwinAll]
  | g, (k₁, o₁) :: rest₁, (_, o₂) :: rest₂, h, hfind => by
      rw [TwinAll] at h ⊢
      obtain ⟨rfl, ho, hrest⟩ := h
      have hunder : DsonObj.under k₁ (.dson d children) = some o₁ := hfind k₁ o₁ List.mem_cons_self
      rw [Gaps.child_left hunder]
      exact ⟨rfl, ho.left, hrest.left d children fun k o hmem => hfind k o (List.mem_cons_of_mem _ hmem)⟩
  | _, [], _ :: _, h, _ => by simp [TwinAll] at h
  | _, _ :: _, [], h, _ => by simp [TwinAll] at h

end

theorem Twin.copyOut {σ : Type} [ByteSink σ] {network : Bool} {g : Gaps} {o₁ o₂ : DsonObj} (h : Twin e g o₁ o₂)
    {s : σ} {m : Mem} (hg : g.closesCopy e network o₁.depth o₁ m s = true) :
    TwinResults e (fun _ => g) (o₁.copyOut e network s m) (o₂.copyOut e network s m) := by
  refine rel_bind (h.copyTo hg) ?_
  rintro ⟨r, o₁, m, s⟩ ⟨_, o₂, _⟩ ⟨rfl, ho, heq⟩
  cases heq
  exact .some ⟨rfl, ho, rfl⟩

theorem Twin.act {g : Gaps} {o₁ o₂ : DsonObj} (h : Twin e g o₁ o₂) {a : Act} {m : Mem} (ha : a.closes e g o₁ m = true) :
    TwinResults e (fun _ => g) (a.run e o₁ m) (a.run e o₂ m) := by
  cases a with
  | setKey k => exact rel_map (h.setKey k m) fun p q hpq => ⟨rfl, hpq⟩
  | key =>
      rw [Act.run, Act.run, h.key]
      refine rel_map (rel_refl (r := Eq) (fun _ => rfl) _) ?_
      rintro k _ rfl
      exact ⟨rfl, h, rfl⟩
  | dataType =>
      rw [Act.run, Act.run, h.dataType]
      refine rel_map (rel_refl (r := Eq) (fun _ => rfl) _) ?_
      rintro type _ rfl
      exact ⟨rfl, h, rfl⟩
  | get k =>
      refine rel_map (h.get k m) ?_
      rintro ⟨f, o₁, m⟩ ⟨_, o₂, _⟩ ⟨rfl, ho, rfl⟩
      exact ⟨rfl, ho, rfl⟩
  | toStream network =>
      refine rel_map (h.copyToStream ha) ?_
      rintro ⟨o₁, m, bs⟩ ⟨o₂, _⟩ ⟨ho, heq⟩
      cases heq
      exact ⟨rfl, ho, rfl⟩
  | toFd network answers => exact h.copyOut ha
  | toBuf network room => exact h.copyOut ha

/-- An operation at the end of a path leaves the gaps where they are. -/
theorem Twin.onPath_act {a : Act} : ∀ (path : List Int) {g : Gaps} {o₁ o₂ : DsonObj} {m : Mem}, Twin e g o₁ o₂ →
    a.closesAt e path g o₁ m = true →
      TwinResults e (fun _ => g) (DsonObj.onPath (a.run e) path o₁ m) (DsonObj.onPath (a.run e) path o₂ m)
  | [], _, _, _, _, h, ha => h.act ha
  | k :: path, _, _, _, m, h, ha => by
      refine h.onChild m (fun hdson hfind hc => Twin.onPath_act path hc ?_) fun _ _ _ => rfl
      rw [hdson, Act.closesAt, hfind] at ha
      exact ha

/-- An emplacement at the end of a path. -/
theorem Twin.onPath_emplaceAs {k : Known} {key : Option Int} {obj₁ obj₂ : DsonObj} (hobj : TwinVars e k obj₁ obj₂)
    (hkeyed : k.keyed = true ∨ key ≠ none) : ∀ (path : List Int) {g : Gaps} {o₁ o₂ : DsonObj}, Twin e g o₁ o₂ → ∀ m,
      TwinResults e (fun a => if a.2 = .ready then Gaps.insertAt a.1 k.gaps path g else g)
        (DsonObj.onPath (DsonObj.emplaceAs e key obj₁) path o₁ m) (DsonObj.onPath (DsonObj.emplaceAs e key obj₂) path o₂ m)
  | [], _, _, _, h, m => h.emplaceAs hobj hkeyed m
  | k' :: path, g, _, _, h, m => by
      refine h.onChild m (fun _ _ hc => ?_) fun a k hk => ?_
      · have hgaps : (fun a : Int × State => (if a.2 = .ready then Gaps.insertAt a.1 k.gaps (k' :: path) g else g).child k') =
            fun a => if a.2 = .ready then Gaps.insertAt a.1 k.gaps path (g.child k') else g.child k' := by
          funext a
          split_ifs
          · rw [Gaps.insertAt, Gaps.child_insert_self]
          · rfl
        rw [hgaps]
        exact Twin.onPath_emplaceAs hobj hkeyed path hc _
      · split_ifs
        · rw [Gaps.insertAt, Gaps.child_insert_ne hk]
        · rfl

/-! ### Construction -/

/-- Two objects that value constructors have left differ in their keys until they are given one. -/
theorem TwinVars.built (e : Endian) (h₁ h₂ : Header) (type : Int) (block : Bytes) :
    TwinVars e ⟨false, .nowhere⟩ (.dson (builtDson e h₁ type block) [])
      (.dson (builtDson e h₂ type block) []) where
  keyed h := by cases h
  dataType _ := rfl
  setKey _ _ := .some ⟨(TwinMaps.nil .nowhere).dson _, rfl⟩

/-- A block that is as long as the value is written whole. -/
theorem ofValue_full (e : Endian) (h : Header) (junk : Nat → UInt8) (type : Int) {value : Bytes} (hne : value ≠ [])
    (hlt : value.length < 2 ^ 31) :
    DsonObj.ofValue e h junk type value.length value = some (.dson (builtDson e h type value) []) := by
  obtain ⟨rest, hrun, hlen⟩ := ofValue_eq (e := e) h junk type value (List.length_pos_of_ne_nil hne) hlt le_rfl
  have hrest : rest = [] := by
    rw [List.length_append] at hlen
    exact List.eq_nil_of_length_eq_zero (by omega)
  rw [hrun, hrest, List.append_nil]

theorem TwinVars.ofValue (e : Endian) (f₁ f₂ : Fresh) (type : Int) (value : Bytes) (hne : value ≠ [])
    (hlt : value.length < 2 ^ 31) : Option.Rel (TwinVars e ⟨false, .nowhere⟩)
      (DsonObj.ofValue e f₁.header f₁.block type value.length value)
      (DsonObj.ofValue e f₂.header f₂.block type value.length value) := by
  rw [ofValue_full e _ _ type hne hlt, ofValue_full e _ _ type hne hlt]
  exact .some (TwinVars.built e _ _ type value)

/-- A double over new memory. -/
theorem TwinVars.ofDouble (e : Endian) (f₁ f₂ : Fresh) (x : Binary64) :
    Option.Rel (TwinVars e ⟨false, .behind x⟩) (DsonObj.ofDouble e f₁.header f₁.block x)
      (DsonObj.ofDouble e f₂.header f₂.block x) := by
  have hrun : ∀ f : Fresh, ∃ rest : Bytes, rest.length = 5 ∧ DsonObj.ofDouble e f.header f.block x =
      some (.dson (Dson.doubleOver e (builtHeader e f.header TypesMap.double bufSizeForDouble) x rest) []) := by
    intro f
    obtain ⟨rest, hrun, hlen⟩ := ofValue_eq (e := e) f.header f.block TypesMap.double
      (bytesOf e 8 x.toNat) (by decide : 0 < bufSizeForDouble) (by decide) (by simp [bufSizeForDouble])
    refine ⟨rest, ?_, ?_⟩
    · rw [List.length_append, bytesOf_length, bufSizeForDouble] at hlen
      omega
    · rw [DsonObj.ofDouble, hrun, builtDson, hlen]
      rfl
  obtain ⟨rest₁, hlen₁, hrun₁⟩ := hrun f₁
  obtain ⟨rest₂, hlen₂, hrun₂⟩ := hrun f₂
  rw [hrun₁, hrun₂]
  refine .some ⟨fun h => Bool.noConfusion h, fun _ => rfl, fun key m => .some ⟨Unwritten.twin ?_, rfl⟩⟩
  have htype : (builtHeader e f₁.header TypesMap.double bufSizeForDouble).dataTypeOf e = TypesMap.double :=
    builtHeader_dataTypeOf _ (by decide) _
  exact ⟨(builtHeader e f₁.header TypesMap.double bufSizeForDouble).setKey e key, rest₁, rest₂,
    builtHeader_isHostOrder f₁.header TypesMap.double bufSizeForDouble, (Header.dataTypeOf_setKey _ _).trans htype, hlen₁, hlen₂, rfl, rfl⟩

/-- What is built from the same value over any memory. -/
theorem Given.build_twins (e : Endian) {g : Given} (hg : g ≠ .string []) (f₁ f₂ : Fresh) :
    Option.Rel (TwinVars e g.known) (g.build e f₁) (g.build e f₂) := by
  cases g with
  | container => exact .some (Twin.vars (k := ⟨true, .nowhere⟩) ((TwinMaps.nil .nowhere).dson _))
  | int32 v => exact TwinVars.ofValue e f₁ f₂ TypesMap.int32 (Cell.ofInt e v).bytes (by simp [Cell.bytes]) (by simp)
  | uint32 v =>
      have hlen := bytesOf_length e 4 v
      have htwins := TwinVars.ofValue e f₁ f₂ TypesMap.uint32 (bytesOf e 4 v)
        (List.ne_nil_of_length_pos (by omega)) (by omega)
      rw [hlen] at htwins
      exact htwins
  | double x => exact TwinVars.ofDouble e f₁ f₂ x
  | string s =>
      have hne : s ≠ [] := fun hs => hg (by rw [hs])
      by_cases hlt : s.length < 2 ^ 31
      · have htwins := TwinVars.ofValue e f₁ f₂ TypesMap.string s hne hlt
        rw [Given.build, Given.build, DsonObj.ofString, DsonObj.ofString, if_neg hne, if_neg hne]
        exact htwins
      · have hnone : ∀ f : Fresh, Given.build e f (.string s) = none := by
          intro f
          cases hrun : Given.build e f (.string s) with
          | none => rfl
          | some o => exact absurd (ofString_lt hrun) hlt
        rw [hnone, hnone]
        exact .none
  | stringObj key object => exact .some (Twin.vars (k := ⟨true, .nowhere⟩) (Twin.custom (by simp [DsonObj.ofStringObj])))
  | routeObj key a => exact .some (Twin.vars (k := ⟨true, .nowhere⟩) (Twin.custom (by simp [DsonObj.ofRouteObj])))

/-! ### Runs -/

/-- The variables of two runs. -/
def TwinPools (e : Endian) (known : Nat → Known) (p₁ p₂ : Pool) : Prop :=
  ∀ i, Option.Rel (TwinVars e (known i)) (p₁ i) (p₂ i)

theorem TwinPools.update {known known' : Nat → Known} {p₁ p₂ : Pool} (h : TwinPools e known p₁ p₂) (i : Nat)
    {o₁ o₂ : DsonObj} (ho : TwinVars e (known' i) o₁ o₂) (hknown : ∀ j ≠ i, known' j = known j) :
    TwinPools e known' (Function.update p₁ i (some o₁)) (Function.update p₂ i (some o₂)) := by
  intro j
  by_cases hj : j = i
  · subst hj
    rw [Function.update_self, Function.update_self]
    exact .some ho
  · rw [Function.update_of_ne hj, Function.update_of_ne hj, hknown j hj]
    exact h j

theorem TwinPools.moved {known : Nat → Known} {p₁ p₂ : Pool} (h : TwinPools e known p₁ p₂) (j : Nat) :
    TwinPools e known (Function.update p₁ j none) (Function.update p₂ j none) := by
  intro i
  by_cases hi : i = j
  · subst hi
    rw [Function.update_self, Function.update_self]
    exact .none
  · rw [Function.update_of_ne hi, Function.update_of_ne hi]
    exact h i

/-- Conversions make gaps go away. -/
theorem TwinPools.refresh {known : Nat → Known} {p₁ p₂ : Pool} (h : TwinPools e known p₁ p₂) :
    TwinPools e (refresh e p₁ known) p₁ p₂ := by
  intro i
  have hi := h i
  rw [LeanDson.refresh]
  cases hp₁ : p₁ i with
  | none =>
      rw [hp₁] at hi
      exact hi
  | some o₁ =>
      rw [hp₁] at hi
      cases hkeyed : (known i).keyed with
      | false => exact hi
      | true =>
          generalize p₂ i = r₂ at hi
          cases hi with
          | some hvars => exact .some (Twin.vars (k := ⟨true, _⟩) (hvars.keyed hkeyed).left)

theorem Statement.note_act {known : Nat → Known} {i : Nat} (hkeyed : (known i).keyed = true) (path : List Int) (a : Act)
    (out : Output) : Statement.note known (.act i path a) out = known := by
  have hsame : Function.update known i { known i with keyed := true } = known := by
    rw [← hkeyed, Function.update_eq_self]
  cases a with
  | setKey k =>
      rw [Statement.note]
      split_ifs
      · exact hsame
      · rfl
  | _ => rfl

/-- One step of two runs. -/
theorem TwinPools.step {known : Nat → Known} {p₁ p₂ : Pool} (h : TwinPools e known p₁ p₂) {s : Statement}
    (hs : s.Allowed e p₁ known) (f₁ f₂ : Fresh) :
    Option.Rel (fun q₁ q₂ => q₁.1 = q₂.1 ∧ TwinPools e (s.note known q₁.1) q₁.2 q₂.2) (s.step e f₁ p₁) (s.step e f₂ p₂) := by
  cases s with
  | make i g =>
      refine rel_bind (Given.build_twins e hs f₁ f₂) fun o₁ o₂ ho => .some ⟨rfl, h.update i ?_ fun j hj => ?_⟩
      · rw [Statement.note, Function.update_self]
        exact ho
      · rw [Statement.note, Function.update_of_ne hj]
  | act i path a =>
      obtain ⟨hkeyed | ⟨rfl, hreads⟩, hcloses⟩ := hs
      · refine rel_bind_all (h i) hcloses fun o₁ o₂ hcloses hvars => ?_
        refine rel_bind (Twin.onPath_act path (hvars.keyed hkeyed) hcloses) ?_
        rintro ⟨out, o₁, m⟩ ⟨_, o₂, _⟩ ⟨rfl, ho, rfl⟩
        refine .some ⟨rfl, ?_⟩
        dsimp only
        rw [Statement.note_act hkeyed]
        exact h.update i ho.vars fun _ _ => rfl
      · refine rel_bind (h i) fun o₁ o₂ hvars => ?_
        cases a with
        | setKey k =>
            have hset : Option.Rel (fun p q => p.1 = q.1 ∧ Twin e (known i).gaps p.2.1 q.2.1)
                ((Act.setKey k).run e o₁ ⟨[], []⟩) ((Act.setKey k).run e o₂ ⟨[], []⟩) :=
              rel_map (hvars.setKey k ⟨[], []⟩) fun p q hpq => ⟨rfl, hpq.1⟩
            refine rel_bind hset ?_
            rintro ⟨out, o₁, m₁⟩ ⟨_, o₂, m₂⟩ ⟨rfl, ho⟩
            refine .some ⟨rfl, h.update i ?_ fun j hj => ?_⟩
            · rw [Statement.note, if_pos rfl, Function.update_self]
              exact Twin.vars (k := ⟨true, _⟩) ho
            · rw [Statement.note, if_pos rfl, Function.update_of_ne hj]
        | dataType =>
            have hask : Option.Rel (fun p q => p.1 = q.1 ∧ TwinVars e (known i) p.2.1 q.2.1)
                (Act.dataType.run e o₁ ⟨[], []⟩) (Act.dataType.run e o₂ ⟨[], []⟩) := by
              rw [Act.run, Act.run, hvars.dataType]
              refine rel_map (rel_refl (r := Eq) (fun _ => rfl) _) ?_
              rintro type _ rfl
              exact ⟨rfl, hvars⟩
            refine rel_bind hask ?_
            rintro ⟨out, o₁, m₁⟩ ⟨_, o₂, m₂⟩ ⟨rfl, ho⟩
            exact .some ⟨rfl, h.update i ho fun _ _ => rfl⟩
        | _ => cases hreads
  | emplace i path key j =>
      obtain ⟨hkeyed, hkey⟩ := hs
      refine rel_bind (h j) fun obj₁ obj₂ hobj => ?_
      refine rel_bind (h.moved j i) fun o₁ o₂ hvars => ?_
      refine rel_bind (Twin.onPath_emplaceAs hobj hkey path (hvars.keyed hkeyed) ⟨[], []⟩) ?_
      rintro ⟨⟨k, state⟩, o₁, m⟩ ⟨_, o₂, _⟩ ⟨rfl, ho, rfl⟩
      dsimp only at ho ⊢
      cases state with
      | ready =>
          refine .some ⟨rfl, (h.moved j).update i ?_ fun l hl => ?_⟩
          · rw [Statement.note, Function.update_self]
            exact Twin.vars (k := ⟨_, _⟩) ho
          · rw [Statement.note, Function.update_of_ne hl]
      | _ => exact .some ⟨rfl, (h.moved j).update i ho.vars fun _ _ => rfl⟩

/-- What two runs of one careful program see. -/
theorem TwinPools.run (junk₁ junk₂ : Nat → Fresh) (program : List Statement) : ∀ {known : Nat → Known} {p₁ p₂ : Pool},
    TwinPools e known p₁ p₂ → Careful e junk₁ program p₁ known →
      runProgram e junk₁ program p₁ = runProgram e junk₂ program p₂ := by
  induction program with
  | nil => exact fun _ _ => rfl
  | cons s rest ih =>
      intro known p₁ p₂ h hcareful
      obtain ⟨hs, hrest⟩ := hcareful
      have hstep := h.step hs (junk₁ rest.length) (junk₂ rest.length)
      rw [runProgram, runProgram]
      generalize hr₁ : s.step e (junk₁ rest.length) p₁ = r₁ at hstep
      generalize hr₂ : s.step e (junk₂ rest.length) p₂ = r₂ at hstep
      cases hstep with
      | none => rfl
      | @some q₁ q₂ hq =>
          obtain ⟨out, p₁'⟩ := q₁
          obtain ⟨_, p₂'⟩ := q₂
          obtain ⟨rfl, hpools⟩ := hq
          dsimp only
          rw [ih hpools.refresh (hrest out p₁' hr₁)]

end

/-! ### Uninitialised memory -/

/-- No variables. -/
def Pool.empty : Pool := fun _ => none

def Known.start : Nat → Known := fun _ => ⟨true, .nowhere⟩

/-- A careful program sees the same over any other uninitialised memory. -/
theorem junk_unseen (e : Endian) (junk₁ junk₂ : Nat → Fresh) (program : List Statement)
    (h : Careful e junk₁ program Pool.empty Known.start) :
    runProgram e junk₁ program Pool.empty = runProgram e junk₂ program Pool.empty :=
  TwinPools.run junk₁ junk₂ program (fun _ => .none) h

instance (e : Endian) (k : Known) (o : Option DsonObj) (path : List Int) (a : Act) : Decidable (a.Allowed e k o path) :=
  inferInstanceAs (Decidable (_ ∧ _ = true))

instance Statement.decidableAllowed (e : Endian) (pool : Pool) (known : Nat → Known) :
    ∀ s : Statement, Decidable (s.Allowed e pool known)
  | .make _ g => inferInstanceAs (Decidable (g ≠ .string []))
  | .act i path a => inferInstanceAs (Decidable (a.Allowed e (known i) (pool i) path))
  | .emplace i _ key j => inferInstanceAs (Decidable ((known i).keyed = true ∧ ((known j).keyed = true ∨ key ≠ none)))

instance Careful.decidable (e : Endian) (junk : Nat → Fresh) : ∀ (program : List Statement) (pool : Pool)
    (known : Nat → Known), Decidable (Careful e junk program pool known)
  | [], _, _ => isTrue trivial
  | s :: rest, pool, known =>
      match hstep : s.step e (junk rest.length) pool with
      | none => decidable_of_iff (s.Allowed e pool known) (by simp [Careful, hstep])
      | some (out, pool') =>
          have := Careful.decidable e junk rest pool' (refresh e pool' (s.note known out))
          decidable_of_iff (s.Allowed e pool known ∧ Careful e junk rest pool' (refresh e pool' (s.note known out)))
            (by simp [Careful, hstep])

/-- One and a half. -/
def Binary64.oneAndAHalf : Binary64 := Binary64.ofNat 0x3FF8000000000000

def Fresh.zeros : Fresh := ⟨⟨⟨0, 0, 0, 0⟩, ⟨0, 0, 0, 0⟩, ⟨0, 0, 0, 0⟩, ⟨0, 0, 0, 0⟩⟩, fun _ => 0⟩

def Fresh.ones : Fresh :=
  ⟨⟨⟨255, 255, 255, 255⟩, ⟨255, 255, 255, 255⟩, ⟨255, 255, 255, 255⟩, ⟨255, 255, 255, 255⟩⟩, fun _ => 255⟩

/-- An emission in host order ends inside the header of a container and does not get to the double in it; the
container goes to the network, is looked into, and the double goes out in host order. -/
theorem junk_unseen_sample :
    let program : List Statement := [.make 0 .container, .make 1 (.double .oneAndAHalf), .emplace 0 [] (some 7) 1,
      .act 0 [] (.toBuf false 10), .make 2 (.int32 5), .emplace 0 [] (some 3) 2, .act 0 [] (.toStream true),
      .act 0 [] (.get 7), .act 0 [7] (.toBuf false 29)]
    runProgram .little (fun _ => .zeros) program Pool.empty = runProgram .little (fun _ => .ones) program Pool.empty :=
  junk_unseen .little _ _ _ (by decide +kernel)

/-- A double that goes out in host order takes five bytes of the block with it. -/
theorem double_leaks :
    let program : List Statement := [.make 0 (.double .oneAndAHalf), .act 0 [] (.setKey 7), .act 0 [] (.toStream false)]
    runProgram .little (fun _ => .zeros) program Pool.empty ≠ runProgram .little (fun _ => .ones) program Pool.empty := by
  decide +kernel

end LeanDson
