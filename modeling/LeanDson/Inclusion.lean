import LeanDson.Inversion
import LeanDson.Streaming

/-! What a complete emission of a container includes: one complete emission of every child, whatever its siblings
are and wherever the calls cut the bytes. -/

namespace LeanDson

open ByteSink

section

variable {σ : Type} {copy copy' : DsonObj → Mem → σ → Option (Result × DsonObj × Mem × σ)}

/-! ### More fuel -/

/-- Every outcome of the first emitter is one of the second. -/
def Extends (copy copy' : DsonObj → Mem → σ → Option (Result × DsonObj × Mem × σ)) : Prop :=
  ∀ o m s out, copy o m s = some out → copy' o m s = some out

theorem copyMap_extends (hc : Extends copy copy') {children : ObjMap} : ∀ {it : CopyIter} {m : Mem} {s : σ}
    {out : Result × CopyIter × ObjMap × Mem × σ},
    Dson.copyMap copy it children m s = some out → Dson.copyMap copy' it children m s = some out := by
  induction children with
  | nil =>
      intro it m s out hrun
      cases it <;> exact hrun
  | cons p rest ih =>
      intro it m s out hrun
      obtain ⟨k, o⟩ := p
      cases it with
      | unset => exact hrun
      | finished => exact hrun
      | node key =>
          rw [Dson.copyMap] at hrun ⊢
          split_ifs at hrun ⊢
          · obtain ⟨q, hrest, hrun⟩ := Option.bind_eq_some_iff.mp hrun
            rw [ih hrest]
            exact hrun
          · obtain ⟨q, hcopy, hrun⟩ := Option.bind_eq_some_iff.mp hrun
            rw [hc _ _ _ _ hcopy]
            simp only [Option.bind_eq_bind, Option.bind_some] at hrun ⊢
            split_ifs at hrun ⊢
            · exact hrun
            · obtain ⟨q', hrest, hrun⟩ := Option.bind_eq_some_iff.mp hrun
              rw [ih hrest]
              exact hrun

theorem copyMap_keys {children : ObjMap} : ∀ {it it' : CopyIter} {children' : ObjMap} {m m' : Mem} {s s' : σ} {r : Result},
    Dson.copyMap copy it children m s = some (r, it', children', m', s') → KeyMap.keys children' = KeyMap.keys children := by
  induction children with
  | nil =>
      intro it it' children' m m' s s' r hrun
      cases it <;> cases hrun <;> rfl
  | cons p rest ih =>
      intro it it' children' m m' s s' r hrun
      obtain ⟨k, o⟩ := p
      cases it with
      | unset => cases hrun
      | finished =>
          cases hrun
          rfl
      | node key =>
          rw [Dson.copyMap] at hrun
          split_ifs at hrun
          · obtain ⟨q, hrest, heq⟩ := Option.bind_eq_some_iff.mp hrun
            cases heq
            rw [KeyMap.keys_cons, KeyMap.keys_cons, ih hrest]
          · obtain ⟨q, -, hrun⟩ := Option.bind_eq_some_iff.mp hrun
            dsimp only at hrun
            split_ifs at hrun
            · cases hrun
              rfl
            · obtain ⟨q', hrest, heq⟩ := Option.bind_eq_some_iff.mp hrun
              cases heq
              rw [KeyMap.keys_cons, KeyMap.keys_cons, ih hrest]

variable {e : Endian} {network : Bool} [ByteSink σ]

theorem copyInternal_extends (hc : Extends copy copy') {d : Dson} {children : ObjMap} {m : Mem} {s : σ}
    {out : Result × DsonObj × Mem × σ} (hrun : d.copyInternal e copy network children m s = some out) :
    d.copyInternal e copy' network children m s = some out := by
  have hdata : ∀ {d : Dson} {children : ObjMap} {m : Mem} {s : σ}, d.copyData copy children m s = some out →
      d.copyData copy' children m s = some out := by
    intro d children m s hrun
    by_cases hkind : d.dsonKind = .dsonContainer
    · rw [Dson.copyData_container _ _ hkind] at hrun ⊢
      obtain ⟨q, hmap, heq⟩ := Option.map_eq_some_iff.mp hrun
      rw [copyMap_extends hc hmap, Option.map_some, heq]
    · rwa [Dson.copyData_payload _ _ hkind] at hrun ⊢
  have hheader : ∀ {d : Dson} {children : ObjMap} {m : Mem} {s : σ}, d.copyHeader copy children m s = some out →
      d.copyHeader copy' children m s = some out := by
    intro d children m s hrun
    rw [Dson.copyHeader_eq] at hrun ⊢
    split_ifs at hrun ⊢
    · exact hrun
    · obtain ⟨h, hh, hrun⟩ := Option.bind_eq_some_iff.mp hrun
      rw [hh, Option.bind_some]
      rcases hwrite : write s (h.bytes.drop d.offset) with ⟨n, s'⟩
      rw [hwrite] at hrun
      cases n with
      | none => exact hrun
      | some n =>
          dsimp only at hrun ⊢
          split_ifs at hrun ⊢
          · exact hrun
          · exact hdata hrun
  rw [Dson.copyInternal] at hrun ⊢
  cases hstate : d.state with
  | ready =>
      rw [hstate] at hrun
      obtain ⟨q, hprepare, hrun⟩ := Option.bind_eq_some_iff.mp hrun
      dsimp only
      rw [hprepare]
      exact hheader hrun
  | copyingHeader =>
      rw [hstate] at hrun
      exact hheader hrun
  | copyingData =>
      rw [hstate] at hrun
      exact hdata hrun
  | loadingHeader =>
      rw [hstate] at hrun
      exact hrun
  | loadingData =>
      rw [hstate] at hrun
      exact hrun
  | error =>
      rw [hstate] at hrun
      exact hrun

theorem copyFuel_extends {fuel fuel' : Nat} (hle : fuel ≤ fuel') :
    Extends (σ := σ) (DsonObj.copyFuel e network fuel) (DsonObj.copyFuel e network fuel') := by
  induction fuel generalizing fuel' with
  | zero =>
      intro o m s out hrun
      cases o <;> cases hrun
  | succ fuel ih =>
      intro o m s out hrun
      obtain ⟨fuel', rfl⟩ := Nat.exists_eq_add_of_lt (Nat.lt_of_succ_le hle)
      cases o with
      | string o => exact hrun
      | route o => exact hrun
      | dson d children => exact copyInternal_extends (ih (by omega)) hrun

/-! ### Bytes are appended -/

/-- A call only appends to its sink. -/
def Appends (copy : DsonObj → Mem → σ → Option (Result × DsonObj × Mem × σ)) : Prop :=
  ∀ o m s r o' m' s', copy o m s = some (r, o', m', s') → ∃ bs, written s' = written s ++ bs

theorem write_appends (s : σ) (bs : Bytes) : ∃ bs', written (write s bs).2 = written s ++ bs' := by
  rcases hwrite : write s bs with ⟨n, s'⟩
  cases n with
  | none => exact ⟨[], by rw [List.append_nil]; exact write_none hwrite⟩
  | some n => exact ⟨_, (write_some hwrite).2⟩

theorem copyMap_appends (hc : Appends copy) {children : ObjMap} : ∀ {it it' : CopyIter} {children' : ObjMap} {m m' : Mem}
    {s s' : σ} {r : Result}, Dson.copyMap copy it children m s = some (r, it', children', m', s') →
    ∃ bs, written s' = written s ++ bs := by
  induction children with
  | nil =>
      intro it it' children' m m' s s' r hrun
      cases it <;> cases hrun <;> exact ⟨[], (List.append_nil _).symm⟩
  | cons p rest ih =>
      intro it it' children' m m' s s' r hrun
      obtain ⟨k, o⟩ := p
      cases it with
      | unset => cases hrun
      | finished =>
          cases hrun
          exact ⟨[], (List.append_nil _).symm⟩
      | node key =>
          rw [Dson.copyMap] at hrun
          split_ifs at hrun
          · obtain ⟨q, hrest, heq⟩ := Option.bind_eq_some_iff.mp hrun
            cases heq
            exact ih hrest
          · obtain ⟨⟨r₁, o₁, m₁, s₁⟩, hcopy, hrun⟩ := Option.bind_eq_some_iff.mp hrun
            obtain ⟨bs, hbs⟩ := hc _ _ _ _ _ _ _ hcopy
            dsimp only at hrun
            split_ifs at hrun
            · cases hrun
              exact ⟨bs, hbs⟩
            · obtain ⟨q, hrest, heq⟩ := Option.bind_eq_some_iff.mp hrun
              cases heq
              obtain ⟨bs', hbs'⟩ := ih hrest
              exact ⟨bs ++ bs', by rw [hbs', hbs, List.append_assoc]⟩

theorem copyBuf_appends {d d' : Dson} {m : Mem} {s s' : σ} {r : Result} (hrun : d.copyBuf m s = some (r, d', s')) :
    ∃ bs, written s' = written s ++ bs := by
  simp only [Dson.copyBuf] at hrun
  split_ifs at hrun
  · cases hrun
    exact ⟨[], (List.append_nil _).symm⟩
  · obtain ⟨off, -, hrun⟩ := Option.bind_eq_some_iff.mp hrun
    obtain ⟨t, -, hrun⟩ := Option.bind_eq_some_iff.mp hrun
    split_ifs at hrun
    obtain ⟨bs, hbs⟩ := write_appends s ((t.take d.bufSizeWithoutHeader.toNat).drop d.offset)
    rcases hwrite : write s ((t.take d.bufSizeWithoutHeader.toNat).drop d.offset) with ⟨n, s₁⟩
    rw [hwrite] at hrun hbs
    cases n with
    | none =>
        cases hrun
        exact ⟨bs, hbs⟩
    | some n =>
        dsimp only at hrun
        split_ifs at hrun <;> cases hrun <;> exact ⟨bs, hbs⟩

theorem copyInternal_appends (hc : Appends copy) {d : Dson} {children : ObjMap} {m m' : Mem} {s s' : σ} {r : Result}
    {o' : DsonObj} (hrun : d.copyInternal e copy network children m s = some (r, o', m', s')) :
    ∃ bs, written s' = written s ++ bs := by
  have hnone : ∃ bs, written s = written s ++ bs := ⟨[], (List.append_nil _).symm⟩
  have hdata : ∀ {d : Dson} {children : ObjMap} {m : Mem} {s : σ}, d.copyData copy children m s = some (r, o', m', s') →
      ∃ bs, written s' = written s ++ bs := by
    intro d children m s hrun
    by_cases hkind : d.dsonKind = .dsonContainer
    · rw [Dson.copyData_container _ _ hkind] at hrun
      obtain ⟨q, hmap, heq⟩ := Option.map_eq_some_iff.mp hrun
      cases heq
      exact copyMap_appends hc hmap
    · rw [Dson.copyData_payload _ _ hkind] at hrun
      obtain ⟨q, hbuf, heq⟩ := Option.map_eq_some_iff.mp hrun
      cases heq
      exact copyBuf_appends hbuf
  have hheader : ∀ {d : Dson} {children : ObjMap} {m : Mem} {s : σ}, d.copyHeader copy children m s =
      some (r, o', m', s') → ∃ bs, written s' = written s ++ bs := by
    intro d children m s hrun
    rw [Dson.copyHeader_eq] at hrun
    split_ifs at hrun
    · cases hrun
      exact ⟨[], (List.append_nil _).symm⟩
    · obtain ⟨h, -, hrun⟩ := Option.bind_eq_some_iff.mp hrun
      obtain ⟨bs, hbs⟩ := write_appends s (h.bytes.drop d.offset)
      rcases hwrite : write s (h.bytes.drop d.offset) with ⟨n, s₁⟩
      rw [hwrite] at hrun hbs
      cases n with
      | none =>
          cases hrun
          exact ⟨bs, hbs⟩
      | some n =>
          dsimp only at hrun
          split_ifs at hrun
          · cases hrun
            exact ⟨bs, hbs⟩
          · obtain ⟨bs', hbs'⟩ := hdata hrun
            exact ⟨bs ++ bs', by rw [hbs', hbs, List.append_assoc]⟩
  rw [Dson.copyInternal] at hrun
  cases hstate : d.state with
  | ready =>
      rw [hstate] at hrun
      obtain ⟨q, -, hrun⟩ := Option.bind_eq_some_iff.mp hrun
      exact hheader hrun
  | copyingHeader =>
      rw [hstate] at hrun
      exact hheader hrun
  | copyingData =>
      rw [hstate] at hrun
      exact hdata hrun
  | loadingHeader =>
      rw [hstate] at hrun
      cases hrun
      exact hnone
  | loadingData =>
      rw [hstate] at hrun
      cases hrun
      exact hnone
  | error =>
      rw [hstate] at hrun
      cases hrun
      exact hnone

theorem DsonStringObj.copyData_appends (o : DsonStringObj) (s : σ) :
    ∃ bs, written (o.copyData s).2.2 = written s ++ bs := by
  simp only [DsonStringObj.copyData]
  split_ifs
  · exact ⟨[], (List.append_nil _).symm⟩
  · obtain ⟨bs, hbs⟩ := write_appends s ((o.object.take (wrap32 o.object.length).toNat).drop o.offset)
    rcases hwrite : write s ((o.object.take (wrap32 o.object.length).toNat).drop o.offset) with ⟨n, s₁⟩
    rw [hwrite] at hbs
    cases n with
    | none => exact ⟨bs, hbs⟩
    | some n =>
        dsimp only
        split_ifs <;> exact ⟨bs, hbs⟩

theorem DsonStringObj.copyLocal_appends (o : DsonStringObj) (s : σ) :
    ∃ bs, written (o.copyLocal s).2.2 = written s ++ bs := by
  rw [DsonStringObj.copyLocal]
  cases o.state with
  | copyingHeader =>
      dsimp only
      split_ifs
      · exact ⟨[], (List.append_nil _).symm⟩
      · obtain ⟨bs, hbs⟩ := write_appends s (o.header.bytes.drop o.offset)
        rcases hwrite : write s (o.header.bytes.drop o.offset) with ⟨n, s₁⟩
        rw [hwrite] at hbs
        cases n with
        | none => exact ⟨bs, hbs⟩
        | some n =>
            dsimp only
            split_ifs
            · exact ⟨bs, hbs⟩
            · obtain ⟨bs', hbs'⟩ := DsonStringObj.copyData_appends
                { o with offset := 0, state := .copyingData } s₁
              exact ⟨bs ++ bs', by rw [hbs', hbs, List.append_assoc]⟩
  | copyingData => exact o.copyData_appends s
  | ready => exact ⟨[], (List.append_nil _).symm⟩
  | loadingHeader => exact ⟨[], (List.append_nil _).symm⟩
  | loadingData => exact ⟨[], (List.append_nil _).symm⟩
  | error => exact ⟨[], (List.append_nil _).symm⟩

theorem DsonStringObj.copyTo_appends (o : DsonStringObj) (s : σ) :
    ∃ bs, written (o.copyTo e network s).2.2 = written s ++ bs := by
  rw [DsonStringObj.copyTo]
  split_ifs <;> exact DsonStringObj.copyLocal_appends _ s

theorem DsonRouteObj.copyTo_appends (o : DsonRouteObj) (s : σ) :
    ∃ bs, written (o.copyTo e network s).2.2 = written s ++ bs := by
  have hlocal : ∀ o : DsonRouteObj, ∃ bs, written (o.copyLocal s).2.2 = written s ++ bs := by
    intro o
    rw [DsonRouteObj.copyLocal]
    cases o.state with
    | copyingHeader =>
        dsimp only
        split_ifs
        · exact ⟨[], (List.append_nil _).symm⟩
        · obtain ⟨bs, hbs⟩ := write_appends s (o.bytes.drop o.offset)
          rcases hwrite : write s (o.bytes.drop o.offset) with ⟨n, s₁⟩
          rw [hwrite] at hbs
          cases n with
          | none => exact ⟨bs, hbs⟩
          | some n =>
              dsimp only
              split_ifs <;> exact ⟨bs, hbs⟩
    | copyingData => exact ⟨[], (List.append_nil _).symm⟩
    | ready => exact ⟨[], (List.append_nil _).symm⟩
    | loadingHeader => exact ⟨[], (List.append_nil _).symm⟩
    | loadingData => exact ⟨[], (List.append_nil _).symm⟩
    | error => exact ⟨[], (List.append_nil _).symm⟩
  rw [DsonRouteObj.copyTo]
  split_ifs <;> exact hlocal _

theorem copyFuel_appends (fuel : Nat) : Appends (σ := σ) (DsonObj.copyFuel e network fuel) := by
  induction fuel with
  | zero =>
      intro o m s r o' m' s' hrun
      cases o <;> cases hrun
  | succ fuel ih =>
      intro o m s r o' m' s' hrun
      cases o with
      | string o =>
          cases hrun
          exact o.copyTo_appends s
      | route o =>
          cases hrun
          exact o.copyTo_appends s
      | dson d children => exact copyInternal_appends ih hrun

/-! ### Deliveries -/

/-- Calls on an object, one after the other until one is ready, append these bytes to their sinks. -/
inductive HandedOver (σ : Type) [ByteSink σ] (e : Endian) (network : Bool) : DsonObj → Mem → Bytes → Prop where
  | last {fuel : Nat} {o o' : DsonObj} {m m' : Mem} {s s' : σ} {bs : Bytes}
      (hcopy : o.copyFuel e network fuel m s = some (.ready, o', m', s')) (hwritten : written s' = written s ++ bs) :
      HandedOver σ e network o m bs
  | more {fuel : Nat} {o o' : DsonObj} {m m' : Mem} {s s' : σ} {bs bs' : Bytes}
      (hcopy : o.copyFuel e network fuel m s = some (.inProcess, o', m', s')) (hwritten : written s' = written s ++ bs)
      (hrest : HandedOver σ e network o' m' bs') : HandedOver σ e network o m (bs ++ bs')

/-! ### One child among others -/

/-- How a loop from the node `j` on can end that has the child `v` under a key in front of it: before the child,
in the middle of it, or behind it. -/
inductive Passes (copy : DsonObj → Mem → σ → Option (Result × DsonObj × Mem × σ)) (key : Int) (v : DsonObj) (j : Int)
    (m : Mem) (s : σ) : Result → CopyIter → ObjMap → Mem → σ → Prop where
  | before {r : Result} {j' : Int} {children : ObjMap} {m' : Mem} {s' : σ} (hr : r ≠ .ready) (hne : j ≠ key)
      (hle : j' ≤ key) (hfind : KeyMap.find key children = some v) : Passes copy key v j m s r (.node j') children m' s'
  | inside {r : Result} {children : ObjMap} {v' : DsonObj} {mv m' : Mem} {t s' : σ} {pre : Bytes} (hr : r ≠ .ready)
      (hcopy : copy v mv t = some (r, v', m', s')) (hfind : KeyMap.find key children = some v')
      (hpre : written t = written s ++ pre) (hhere : j = key → mv = m ∧ t = s) :
      Passes copy key v j m s r (.node key) children m' s'
  | behind {r : Result} {it : CopyIter} {children : ObjMap} {v' : DsonObj} {mv m₁ m' : Mem} {t t' s' : σ} {pre post : Bytes}
      (hcopy : copy v mv t = some (.ready, v', m₁, t')) (hpre : written t = written s ++ pre)
      (hpost : written s' = written t' ++ post) (hhere : j = key → mv = m ∧ t = s) :
      Passes copy key v j m s r it children m' s'

theorem copyMap_passes (hc : Appends copy) {key : Int} {v : DsonObj} {children : ObjMap} :
    ∀ {j : Int} {it : CopyIter} {children' : ObjMap} {m m' : Mem} {s s' : σ} {r : Result},
      KeyMap.Sorted children → KeyMap.find key children = some v → j ≤ key →
      Dson.copyMap copy (.node j) children m s = some (r, it, children', m', s') →
      Passes copy key v j m s r it children' m' s' := by
  induction children with
  | nil =>
      intro j it children' m m' s s' r _ hfind
      cases hfind
  | cons p rest ih =>
      intro j it children' m m' s s' r hsorted hfind hle hrun
      obtain ⟨k, o⟩ := p
      have hlater : key ≠ k → KeyMap.find key rest = some v ∧ k < key := by
        intro hne
        rw [KeyMap.find, if_neg hne] at hfind
        exact ⟨hfind, (KeyMap.sorted_cons.mp hsorted).1 key (KeyMap.mem_keys_of_find hfind)⟩
      have hcons : ∀ {rest' : ObjMap} {o' v' : DsonObj}, key ≠ k → KeyMap.find key rest' = some v' →
          KeyMap.find key ((k, o') :: rest') = some v' := fun hne hf => by rw [KeyMap.find, if_neg hne, hf]
      rw [Dson.copyMap] at hrun
      split_ifs at hrun with hskip
      · obtain ⟨⟨r', it', rest', m₁, s₁⟩, hrest, heq⟩ := Option.bind_eq_some_iff.mp hrun
        cases heq
        have hne : key ≠ k := by omega
        obtain ⟨hfind', -⟩ := hlater hne
        cases ih hsorted.tail hfind' hle hrest with
        | before hr hj hle' hf => exact .before hr hj hle' (hcons hne hf)
        | inside hr hcopy hf hpre hhere => exact .inside hr hcopy (hcons hne hf) hpre hhere
        | behind hcopy hpre hpost hhere => exact .behind hcopy hpre hpost hhere
      · obtain ⟨⟨r₁, o₁, m₁, s₁⟩, hcopy, hrun⟩ := Option.bind_eq_some_iff.mp hrun
        obtain ⟨bs, hbs⟩ := hc _ _ _ _ _ _ _ hcopy
        dsimp only at hrun
        by_cases hk : key = k
        · subst hk
          rw [KeyMap.find, if_pos rfl, Option.some_inj] at hfind
          rw [hfind] at hcopy
          have hself : written s = written s ++ [] := (List.append_nil _).symm
          split_ifs at hrun with hr
          · cases hrun
            exact .inside hr hcopy (by rw [KeyMap.find, if_pos rfl]) hself fun _ => ⟨rfl, rfl⟩
          · obtain ⟨⟨r₂, it₂, rest', m₂, s₂⟩, hrest, heq⟩ := Option.bind_eq_some_iff.mp hrun
            cases heq
            obtain ⟨post, hpost⟩ := copyMap_appends hc hrest
            rw [not_not.mp hr] at hcopy
            exact .behind hcopy hself hpost fun _ => ⟨rfl, rfl⟩
        · obtain ⟨hfind', hlt⟩ := hlater hk
          split_ifs at hrun with hr
          · cases hrun
            exact .before hr (by omega) hlt.le (hcons hk hfind')
          · obtain ⟨⟨r₂, it₂, rest', m₂, s₂⟩, hrest, heq⟩ := Option.bind_eq_some_iff.mp hrun
            cases heq
            cases rest with
            | nil => cases hfind'
            | cons q rest =>
                have hfirst : q.1 ≤ key := by
                  by_cases hq : key = q.1
                  · exact hq.ge
                  · rw [KeyMap.find, if_neg hq] at hfind'
                    exact ((KeyMap.sorted_cons.mp hsorted.tail).1 key (KeyMap.mem_keys_of_find hfind')).le
                cases ih hsorted.tail hfind' hfirst hrest with
                | before hr' hj hle' hf => exact .before hr' (by omega) hle' (hcons hk hf)
                | inside hr' hcopy' hf hpre hhere =>
                    exact .inside hr' hcopy' (hcons hk hf) (by rw [hpre, hbs, List.append_assoc]) fun hj => by omega
                | behind hcopy' hpre hpost hhere =>
                    exact .behind hcopy' (by rw [hpre, hbs, List.append_assoc]) hpost fun hj => by omega

/-- The children see what they have left of their memory. -/
theorem Dson.inner_outer (d : Dson) (m inside : Mem) (it : CopyIter) (state : State) :
    Dson.inner { (d.outer m inside).1 with copyIter := it, state := state } (d.outer m inside).2 = inside := by
  rw [Dson.inner, Dson.outer]
  cases hbuf : d.buf <;> simp [hbuf]

/-- A container in the middle of a copy has this child still to copy, or is in the middle of it. -/
structure Dson.Due (d : Dson) (children : ObjMap) (key : Int) (v : DsonObj) : Prop where
  kind : d.dsonKind = .dsonContainer
  sorted : KeyMap.Sorted children
  find : KeyMap.find key children = some v
  place : d.state = .copyingHeader ∨ (d.state = .copyingData ∧ ∃ j, d.copyIter = .node j ∧ j ≤ key)

/-- The copy is at the child. -/
def Dson.AtChild (d : Dson) (key : Int) : Prop := d.state = .copyingData ∧ d.copyIter = .node key

/-- How a call on a container can end that has the child `v` under a key still to copy. -/
inductive Passed (copy : DsonObj → Mem → σ → Option (Result × DsonObj × Mem × σ)) (key : Int) (v : DsonObj) (d : Dson)
    (m : Mem) (s : σ) : Result → DsonObj → Mem → σ → Prop where
  | failed {o : DsonObj} {m' : Mem} {s' : σ} : Passed copy key v d m s .error o m' s'
  | before {d' : Dson} {children : ObjMap} {m' : Mem} {s' : σ} (hne : ¬d.AtChild key) (hdue : d'.Due children key v) :
      Passed copy key v d m s .inProcess (.dson d' children) m' s'
  | inside {d' : Dson} {children : ObjMap} {v' : DsonObj} {mv m' : Mem} {t s' : σ} {pre : Bytes}
      (hcopy : copy v mv t = some (.inProcess, v', d'.inner m', s')) (hdue : d'.Due children key v')
      (hat : d'.AtChild key) (hpre : written t = written s ++ pre) (hhere : d.AtChild key → mv = d.inner m ∧ t = s) :
      Passed copy key v d m s .inProcess (.dson d' children) m' s'
  | behind {r : Result} {o : DsonObj} {v' : DsonObj} {mv m₁ m' : Mem} {t t' s' : σ} {pre post : Bytes}
      (hcopy : copy v mv t = some (.ready, v', m₁, t')) (hpre : written t = written s ++ pre)
      (hpost : written s' = written t' ++ post) (hhere : d.AtChild key → mv = d.inner m ∧ t = s) :
      Passed copy key v d m s r o m' s'

theorem copyData_passed (hc : Appends copy) {d : Dson} {children : ObjMap} {key j : Int} {v o' : DsonObj} {m m' : Mem}
    {s s' : σ} {r : Result} (hdue : d.Due children key v) (hstate : d.state = .copyingData) (hit : d.copyIter = .node j)
    (hle : j ≤ key) (hrun : d.copyData copy children m s = some (r, o', m', s')) :
    Passed copy key v d m s r o' m' s' := by
  have hat : d.AtChild key → j = key := by
    rintro ⟨-, hkey⟩
    rw [hit] at hkey
    cases hkey
    rfl
  rw [Dson.copyData_container _ _ hdue.kind, hit] at hrun
  obtain ⟨⟨r', it, children', inside, s₁⟩, hmap, heq⟩ := Option.map_eq_some_iff.mp hrun
  cases heq
  have hsorted : KeyMap.Sorted children' := hdue.sorted.congr (copyMap_keys hmap)
  have hdue' : ∀ {j : Int} {v' : DsonObj}, j ≤ key → KeyMap.find key children' = some v' → Dson.Due
      { (d.outer m inside).1 with copyIter := .node j, state := (d.outer m inside).1.state } children' key v' := by
    intro j v' hj hf
    refine ⟨?_, hsorted, hf, Or.inr ⟨?_, j, rfl, hj⟩⟩
    · rw [Dson.outer_fields]
      exact hdue.kind
    · rw [Dson.outer_fields]
      exact hstate
  cases copyMap_passes hc hdue.sorted hdue.find hle hmap with
  | before hr hne hle' hf =>
      cases r' with
      | error => exact .failed
      | ready => exact absurd rfl hr
      | inProcess => exact .before (fun h => hne (hat h)) (hdue' hle' hf)
  | inside hr hcopy hf hpre hhere =>
      cases r' with
      | error => exact .failed
      | ready => exact absurd rfl hr
      | inProcess =>
          have hdue'' : Dson.Due { (d.outer m inside).1 with
              copyIter := .node key, state := (d.outer m inside).1.state } _ key _ := hdue' le_rfl hf
          refine .inside ?_ hdue'' ⟨?_, rfl⟩ hpre fun h => hhere (hat h)
          · rw [Dson.inner_outer]
            exact hcopy
          · rw [Dson.outer_fields]
            exact hstate
  | behind hcopy hpre hpost hhere => exact .behind hcopy hpre hpost fun h => hhere (hat h)

theorem copyHeader_passed (hc : Appends copy) {d : Dson} {children : ObjMap} {key : Int} {v o' : DsonObj} {m m' : Mem}
    {s s' : σ} {r : Result} (hdue : d.Due children key v) (hstate : d.state = .copyingHeader)
    (hrun : d.copyHeader copy children m s = some (r, o', m', s')) : Passed copy key v d m s r o' m' s' := by
  have hnot : ¬d.AtChild key := by
    rintro ⟨h, -⟩
    rw [hstate] at h
    cases h
  rw [Dson.copyHeader_eq] at hrun
  split_ifs at hrun
  · cases hrun
    exact .failed
  · obtain ⟨h, -, hrun⟩ := Option.bind_eq_some_iff.mp hrun
    rcases hwrite : write s (h.bytes.drop d.offset) with ⟨n, s₁⟩
    rw [hwrite] at hrun
    cases n with
    | none =>
        cases hrun
        exact .failed
    | some n =>
        dsimp only at hrun
        split_ifs at hrun
        · cases hrun
          exact .before hnot ⟨hdue.kind, hdue.sorted, hdue.find, Or.inl hstate⟩
        · have hfirst : ∃ j, Dson.mapBegin children = .node j ∧ j ≤ key := by
            have hfind := hdue.find
            have hsorted := hdue.sorted
            cases children with
            | nil => cases hfind
            | cons q rest =>
                refine ⟨q.1, rfl, ?_⟩
                by_cases hq : key = q.1
                · exact hq.ge
                · rw [KeyMap.find, if_neg hq] at hfind
                  exact ((KeyMap.sorted_cons.mp hsorted).1 key (KeyMap.mem_keys_of_find hfind)).le
          obtain ⟨j, hbegin, hle⟩ := hfirst
          have hit : (d.headerCopied children n).copyIter = .node j :=
            (if_pos hdue.kind).trans hbegin
          have hpassed := copyData_passed hc (d := d.headerCopied children n)
            ⟨hdue.kind, hdue.sorted, hdue.find, Or.inr ⟨rfl, j, hit, hle⟩⟩ rfl hit hle hrun
          have hbs := (write_some hwrite).2
          cases hpassed with
          | failed => exact .failed
          | before hne hdue' => exact .before hnot hdue'
          | inside hcopy hdue' hat hpre hhere =>
              exact .inside hcopy hdue' hat (by rw [hpre, hbs, List.append_assoc]) fun h => absurd h hnot
          | behind hcopy hpre hpost hhere =>
              exact .behind hcopy (by rw [hpre, hbs, List.append_assoc]) hpost fun h => absurd h hnot

theorem Dson.Due.call {d : Dson} {children : ObjMap} {key : Int} {v o' : DsonObj} {m m' : Mem} {s s' : σ} {r : Result}
    (hdue : d.Due children key v) (hrun : (DsonObj.dson d children).copyTo e network m s = some (r, o', m', s')) :
    ∃ fuel, Passed (DsonObj.copyFuel e network fuel) key v d m s r o' m' s' := by
  refine ⟨max 1 (DsonObj.depths children), ?_⟩
  rw [DsonObj.copyTo, DsonObj.depth, DsonObj.copyFuel, Dson.copyInternal] at hrun
  rcases hdue.place with hstate | ⟨hstate, j, hit, hle⟩
  · rw [hstate] at hrun
    exact copyHeader_passed (copyFuel_appends _) hdue hstate hrun
  · rw [hstate] at hrun
    exact copyData_passed (copyFuel_appends _) hdue hstate hit hle hrun

/-! ### Complete emissions -/

/-- A run of one call and more. -/
theorem DsonObj.emitRun_cons {p q : DsonObj × Mem} {s : σ} {ss : List σ} {bs : Bytes}
    (hrun : emitRun (DsonObj.copyCall e network) p (s :: ss) = some (.ready, q, bs)) :
    ∃ r o' m' s', p.1.copyTo e network p.2 s = some (r, o', m', s') ∧
      ((r = .ready ∧ bs = written s') ∨ (r = .inProcess ∧ ∃ bs', bs = written s' ++ bs' ∧
        emitRun (DsonObj.copyCall e network) (o', m') ss = some (.ready, q, bs'))) := by
  rw [emitRun] at hrun
  obtain ⟨⟨r, p', s'⟩, hcall, hrun⟩ := Option.bind_eq_some_iff.mp hrun
  obtain ⟨⟨r₁, o₁, m₁, s₁⟩, hcopy, heq⟩ := Option.bind_eq_some_iff.mp hcall
  cases heq
  refine ⟨r, o₁, m₁, s', hcopy, ?_⟩
  dsimp only at hrun
  split_ifs at hrun with hr
  · obtain ⟨⟨r', q', bs'⟩, hrest, heq⟩ := Option.bind_eq_some_iff.mp hrun
    cases heq
    exact Or.inr ⟨hr, bs', rfl, hrest⟩
  · cases hrun
    exact Or.inl ⟨rfl, rfl⟩

/-- From the middle of a child on, a run hands over the rest of it first. -/
theorem Dson.Due.run_here {ss : List σ} : ∀ {d : Dson} {children : ObjMap} {key : Int} {v : DsonObj} {m : Mem}
    {q : DsonObj × Mem} {bs : Bytes}, d.Due children key v → d.AtChild key → (∀ s ∈ ss, written s = []) →
    emitRun (DsonObj.copyCall e network) (.dson d children, m) ss = some (.ready, q, bs) →
    ∃ mid post, bs = mid ++ post ∧ HandedOver σ e network v (d.inner m) mid := by
  induction ss with
  | nil =>
      intro d children key v m q bs _ _ _ hrun
      cases hrun
  | cons s ss ih =>
      intro d children key v m q bs hdue hat hss hrun
      obtain ⟨r, o', m', s', hcall, hnext⟩ := DsonObj.emitRun_cons hrun
      have hfresh := hss s List.mem_cons_self
      obtain ⟨fuel, hpassed⟩ := hdue.call hcall
      cases hpassed with
      | failed => rcases hnext with ⟨hr, -⟩ | ⟨hr, -⟩ <;> cases hr
      | before hne => exact absurd hat hne
      | inside hcopy hdue' hat' hpre hhere =>
          obtain ⟨rfl, rfl⟩ := hhere hat
          obtain ⟨hr, -⟩ | ⟨-, bs', rfl, hrest⟩ := hnext
          · cases hr
          obtain ⟨mid, post, rfl, hmid⟩ := ih hdue' hat' (fun t ht => hss t (List.mem_cons_of_mem _ ht)) hrest
          refine ⟨written s' ++ mid, post, (List.append_assoc _ _ _).symm, .more hcopy ?_ hmid⟩
          rw [hfresh, List.nil_append]
      | @behind _ _ _ _ _ _ _ t' _ _ post hcopy hpre hpost hhere =>
          obtain ⟨rfl, rfl⟩ := hhere hat
          have hmid : HandedOver σ e network v (d.inner m) (written t') :=
            .last hcopy (by rw [hfresh, List.nil_append])
          obtain ⟨-, rfl⟩ | ⟨-, bs', rfl, -⟩ := hnext
          · exact ⟨written t', post, hpost, hmid⟩
          · exact ⟨written t', post ++ bs', by rw [hpost, List.append_assoc], hmid⟩

/-- A complete run hands over the child somewhere. -/
theorem Dson.Due.run {ss : List σ} : ∀ {d : Dson} {children : ObjMap} {key : Int} {v : DsonObj} {m : Mem}
    {q : DsonObj × Mem} {bs : Bytes}, d.Due children key v → (∀ s ∈ ss, written s = []) →
    emitRun (DsonObj.copyCall e network) (.dson d children, m) ss = some (.ready, q, bs) →
    ∃ pre mid post mv, bs = pre ++ (mid ++ post) ∧ HandedOver σ e network v mv mid := by
  induction ss with
  | nil =>
      intro d children key v m q bs _ _ hrun
      cases hrun
  | cons s ss ih =>
      intro d children key v m q bs hdue hss hrun
      obtain ⟨r, o', m', s', hcall, hnext⟩ := DsonObj.emitRun_cons hrun
      have hfresh := hss s List.mem_cons_self
      have hss' : ∀ t ∈ ss, written t = [] := fun t ht => hss t (List.mem_cons_of_mem _ ht)
      obtain ⟨fuel, hpassed⟩ := hdue.call hcall
      cases hpassed with
      | failed => rcases hnext with ⟨hr, -⟩ | ⟨hr, -⟩ <;> cases hr
      | before hne hdue' =>
          obtain ⟨hr, -⟩ | ⟨-, bs', rfl, hrest⟩ := hnext
          · cases hr
          obtain ⟨pre, mid, post, mv, rfl, hmid⟩ := ih hdue' hss' hrest
          exact ⟨written s' ++ pre, mid, post, mv, (List.append_assoc _ _ _).symm, hmid⟩
      | @inside _ _ _ mv _ t _ pre hcopy hdue' hat' hpre hhere =>
          obtain ⟨hr, -⟩ | ⟨-, bs', rfl, hrest⟩ := hnext
          · cases hr
          obtain ⟨mid, post, rfl, hmid⟩ := hdue'.run_here hat' hss' hrest
          obtain ⟨part, hpart⟩ := copyFuel_appends _ _ _ _ _ _ _ _ hcopy
          rw [hfresh, List.nil_append] at hpre
          refine ⟨pre, part ++ mid, post, mv, ?_, .more hcopy hpart hmid⟩
          rw [hpart, hpre]
          simp only [List.append_assoc]
      | @behind _ _ _ mv _ _ t t' _ pre post hcopy hpre hpost hhere =>
          obtain ⟨part, hpart⟩ := copyFuel_appends _ _ _ _ _ _ _ _ hcopy
          have hmid : HandedOver σ e network v mv part := .last hcopy hpart
          rw [hfresh, List.nil_append] at hpre
          obtain ⟨-, rfl⟩ | ⟨-, bs', rfl, -⟩ := hnext
          · exact ⟨pre, part, post, mv, by rw [hpost, hpart, hpre, List.append_assoc], hmid⟩
          · exact ⟨pre, part, post ++ bs', mv, by rw [hpost, hpart, hpre]; simp only [List.append_assoc], hmid⟩

/-- A complete emission of a container hands over every child. -/
theorem copyRun_includes {d : Dson} {children : ObjMap} {key : Int} {v : DsonObj} {m : Mem} {q : DsonObj × Mem}
    {bs : Bytes} {ss : List σ} (hstate : d.state = .ready) (hkind : d.dsonKind = .dsonContainer)
    (hsorted : KeyMap.Sorted children) (hfind : KeyMap.find key children = some v) (hss : ∀ s ∈ ss, written s = [])
    (hrun : (DsonObj.dson d children).copyRun e network m ss = some (.ready, q, bs)) :
    ∃ pre mid post mv, bs = pre ++ (mid ++ post) ∧ HandedOver σ e network v mv mid := by
  cases ss with
  | nil => cases hrun
  | cons s ss =>
      cases hprepare : d.prepareCopy e network children m with
      | none =>
          obtain ⟨r, o', m', s', hcopy, -⟩ := DsonObj.emitRun_cons hrun
          rw [DsonObj.copyTo, DsonObj.depth, DsonObj.copyFuel, Dson.copyInternal, hstate] at hcopy
          dsimp only at hcopy
          rw [hprepare] at hcopy
          cases hcopy
      | some p =>
          obtain ⟨d', children', m'⟩ := p
          obtain ⟨h, d₁, d₂, -, ⟨hneeds, -⟩ | ⟨-, rfl, rfl⟩, hrewrites, rfl⟩ := Dson.prepareCopy_cases hprepare
          · rw [hkind] at hneeds
            cases hneeds
          have hcall : DsonObj.copyCall e network (.dson d₁ children', m) s =
              DsonObj.copyCall e network (.dson { d₂ with offset := 0, state := .copyingHeader } children', m') s := by
            simp only [DsonObj.copyCall, DsonObj.copyTo, DsonObj.depth, DsonObj.copyFuel, Dson.copyInternal, hstate,
              hprepare, Option.bind_eq_bind, Option.bind_some]
          have hdue : Dson.Due { d₂ with offset := 0, state := .copyingHeader } children' key v :=
            ⟨hrewrites.dsonKind.trans hkind, hsorted, hfind, Or.inl rfl⟩
          refine hdue.run hss (m := m') (q := q) ?_
          rw [emitRun, ← hcall]
          exact hrun

end

/-- A complete emission of a container to a stream includes that of every child. -/
theorem streamMap_includes {copy : DsonObj → Mem → Option (DsonObj × Mem × Bytes)} {key : Int} {v : DsonObj}
    {children : ObjMap} : ∀ {m m' : Mem} {children' : ObjMap} {bs : Bytes}, KeyMap.find key children = some v →
      Dson.streamMap copy children m = some (children', m', bs) →
      ∃ pre mid post mv out, bs = pre ++ (mid ++ post) ∧ copy v mv = some out ∧ mid = out.2.2 := by
  induction children with
  | nil =>
      intro m m' children' bs hfind
      cases hfind
  | cons p rest ih =>
      intro m m' children' bs hfind hrun
      obtain ⟨k, o⟩ := p
      obtain ⟨⟨o₁, m₁, bs₁⟩, hcopy, hrun⟩ := Option.bind_eq_some_iff.mp hrun
      obtain ⟨⟨rest', m₂, more⟩, hrest, heq⟩ := Option.bind_eq_some_iff.mp hrun
      cases heq
      by_cases hk : key = k
      · rw [KeyMap.find, if_pos hk, Option.some_inj] at hfind
        rw [hfind] at hcopy
        exact ⟨[], bs₁, more, m, _, rfl, hcopy, rfl⟩
      · rw [KeyMap.find, if_neg hk] at hfind
        obtain ⟨pre, mid, post, mv, out, rfl, hout, hmid⟩ := ih hfind hrest
        exact ⟨bs₁ ++ pre, mid, post, mv, out, (List.append_assoc _ _ _).symm, hout, hmid⟩

theorem copyToStream_includes {e : Endian} {network : Bool} {d : Dson} {children : ObjMap} {key : Int} {v o' : DsonObj}
    {m m' : Mem} {bs : Bytes} (hstate : d.state = .ready) (hkind : d.dsonKind = .dsonContainer)
    (hfind : KeyMap.find key children = some v)
    (hrun : (DsonObj.dson d children).copyToStream e network m = some (o', m', bs)) :
    ∃ pre mid post mv fuel out, bs = pre ++ (mid ++ post) ∧ v.streamFuel e network fuel mv = some out ∧ mid = out.2.2 := by
  rw [DsonObj.copyToStream, DsonObj.depth, DsonObj.streamFuel, Dson.streamInternal_ready hstate (by simp [hkind]),
    Dson.streamKind_container hkind] at hrun
  obtain ⟨size, -, hrun⟩ := Option.bind_eq_some_iff.mp hrun
  obtain ⟨⟨d₁, m₁⟩, -, hrun⟩ := Option.bind_eq_some_iff.mp hrun
  obtain ⟨⟨d₂, m₂, head⟩, -, hrun⟩ := Option.bind_eq_some_iff.mp hrun
  obtain ⟨⟨children', inside, bs'⟩, hmap, heq⟩ := Option.bind_eq_some_iff.mp hrun
  cases heq
  obtain ⟨pre, mid, post, mv, out, rfl, hout, hmid⟩ := streamMap_includes hfind hmap
  exact ⟨head ++ pre, mid, post, mv, _, out, (List.append_assoc _ _ _).symm, hout, hmid⟩

end LeanDson
