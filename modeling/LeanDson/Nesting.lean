import LeanDson.Forwarding
import LeanDson.Rounds
import LeanDson.Strings

/-! Calls that nest. A service answers data within the call that brought it, through the router. When data is sent to
one service in the name of another each answer is data for a service again, and the calls nest without end; any other
request the router gets done. -/

namespace LeanDson

open StarRouting

section

variable {e : Endian}

theorem Holds.stringView {o : DsonObj} {k : Int} {s : Bytes} (ho : Holds e o k (.leaf (.string s))) (m : Mem) :
    o.toStringView e m = some s := by
  have hread := ho.readString m
  rw [readTyped] at hread
  simp only [Option.bind_eq_bind, Option.bind_eq_some_iff] at hread
  obtain ⟨type, -, hread⟩ := hread
  split_ifs at hread
  · rw [Reading.run, Option.map_map, Option.map_eq_some_iff] at hread
    obtain ⟨s', hs', heq⟩ := hread
    cases heq
    exact hs'
  · simp at hread

/-- A container leads to its strings. -/
theorem Holds.stringAt {o : DsonObj} {k key : Int} {ts : Forest} {s : Bytes} (ho : Holds e o k (.node ts))
    (hfind : KeyMap.find key ts = some (.leaf (.string s))) (m : Mem) :
    ∃ o', stringAt e key o m = some (s, o', m) := by
  obtain ⟨o₁, hget, ho₁⟩ := ho.get_child hfind m
  obtain ⟨c, hc, honchild⟩ := ho₁.onChild hfind m
  obtain ⟨o₂, hrun, -⟩ := honchild (f := fun o m => (o.toStringView e m).map fun s => (s, o, m))
    (by rw [hc.stringView m]; rfl)
  refine ⟨o₂, ?_⟩
  rw [StarRouting.stringAt, hget]
  exact hrun

end

namespace StarRouting

namespace Server

variable {e : Endian} {h : Header} {j : Nat → UInt8} {c : Nat} {chunk : Nat → Nat}

/-- Data between two services goes to and fro. Each answer is a further call, until it has become too long for a
string. -/
theorem route_underway_nests {x : DsonObj} {ts : Forest} {a : Address} {data : Bytes} {s : Server}
    (hx : Underway e x Key.simpleData.key ts a)
    (hdata : KeyMap.find Key.stringData.key ts = some (.leaf (.string data)))
    (hroutes : Routes s.routeTable (some c) chunk) (hto : IsService c (a.toCliId.toNat e))
    (hfrom : IsService c (a.fromCliId.toNat e)) (depth : Nat) : route e h j depth x s = none := by
  induction depth generalizing x ts a data s chunk with
  | zero => rfl
  | succ depth ih =>
      obtain ⟨o, hstring⟩ := hx.built.holds.stringAt hdata .empty
      have hkey := hx.built.holds.key .empty
      have hchunk : (chunk (a.toCliId.toNat e) + 1) % 2 ^ 32 < 2 ^ 32 := Nat.mod_lt _ (by decide)
      rw [route_underway hx, hroutes.service hto]
      by_cases hlt : (received (a.toCliId.toNat e) (a.fromCliId.toNat e) data).length < 2 ^ 31
      · obtain ⟨y, hrun, hy⟩ := echoService_data (h := h) (j := j) hx.addressAt hkey hstring hchunk hlt
        simp only [Option.bind_eq_bind, hrun, Option.bind_some]
        rw [ih (s := { s with routeTable := _ }) hy rfl (hroutes.count hto) hfrom hto]
        rfl
      · obtain ⟨y, -, hrun⟩ := echoService_eq (h := h) (j := j) hx.addressAt hkey hstring hchunk
        have hnone : DsonObj.ofString e h j (received (a.toCliId.toNat e) (a.fromCliId.toNat e) data) = none :=
          Option.eq_none_iff_forall_ne_some.mpr fun d hd => hlt (ofString_lt hd)
        rw [hnone] at hrun
        simp only [hrun, Option.bind_eq_bind, Option.bind_none]

/-- Data that comes in one service's name for another. -/
theorem route_nests {r : Request e} {o : DsonObj} {s : Server} (ho : Shows e o r.key r.children)
    (hdata : r.key = Key.simpleData.key) (hroutes : Routes s.routeTable (some c) chunk) (hto : IsService c r.toCliId)
    (hfrom : IsService c r.fromCliId) (depth : Nat) : route e h j depth o s = none := by
  cases depth with
  | zero => rfl
  | succ depth =>
      obtain ⟨a, o₁, ho₁, haddress, -, hfc, -, htc⟩ := Request.addressAt ho
      rw [route, haddress]
      simp only [Option.bind_eq_bind, Option.bind_some, htc]
      rw [hroutes.service hto]
      have hlt : (chunk r.toCliId + 1) % 2 ^ 32 < 2 ^ 32 := Nat.mod_lt _ (by decide)
      obtain ⟨o₂, answer, -, hecho, ⟨hnone, -⟩ | ⟨k, ts, b, x, hsome, rfl, hx, hb⟩⟩ :=
        Request.echoService (h := h) (j := j) ho₁ hlt
      · rw [Request.echo, if_neg (by rw [hdata]; decide), if_pos hdata] at hnone
        cases hnone
      · rw [Request.echo, if_neg (by rw [hdata]; decide), if_pos hdata] at hsome
        cases hsome
        simp only [Address.words, List.cons.injEq, and_true] at hb
        obtain ⟨-, hbf, -, hbt⟩ := hb
        simp only [hecho, Option.bind_some]
        rw [route_underway_nests (s := { s with routeTable := _ }) hx rfl (hroutes.count hto) (hbt ▸ hfrom) (hbf ▸ hto)]
        rfl

end Server

/-- What the router gets done. In every state that the star reaches, for a further request that is not addressed to the
client itself, the calls come back if and only if it is not data for one service in the name of another: then two nested
calls are enough, and else no number of them is. -/
theorem receive_returns_iff {e : Endian} {c : Nat} (requests : List (Request e))
    (hfirst : ∀ r ∈ requests.head?, r.fromCliId = c) (hcivil : ∀ r ∈ requests, r.Civil c) {depth : Nat}
    {steps : List Step} {w : World} (hw : (World.start requests).run e (depth + 2) steps = some w) (r : Request e)
    (hnamed : w.server.needSetRoute = true → r.fromCliId = c) (haway : r.toCliId ≠ c)
    (hroom : Forest.size r.children + 128 ≤ 2 ^ 30) {o : DsonObj} (ho : Arrives e o r.wire) (h : Header)
    (j : Nat → UInt8) {calls : Nat} (hcalls : 2 ≤ calls) :
    (∃ s, { w.server with dson := o }.receive e h j calls = some s) ↔
      (r.key = Key.simpleData.key → IsService c r.toCliId → ¬IsService c r.fromCliId) := by
  obtain ⟨w', hrun, hserving, -⟩ := (World.start_serving requests).run hfirst hcivil depth steps
  rw [hw] at hrun
  cases hrun
  obtain ⟨read, todo, chunk, msgs, done, rest, hserves⟩ := hserving
  obtain ⟨got, out, n, hanswered⟩ := hserves.answered
  have hshows : Shows e o r.key r.children := (r.isLetter.held ho).shows
  have htable : w.server.needSetRoute = true ∧ r.fromCliId = c ∧ Routes w.server.routeTable none chunk ∨
      w.server.needSetRoute = false ∧ Routes w.server.routeTable (some c) chunk :=
    hserves.table.imp (fun htable => ⟨htable.1, hnamed htable.1, htable.2.2⟩) id
  constructor
  · rintro ⟨s, hrun⟩ hdata hto hfrom
    obtain ⟨o', table, hset, ho', hroutes⟩ := Server.setRoute_serves (s := { w.server with dson := o }) hshows htable
    have hnests : Server.route e h j calls o' { w.server with
        dson := o'
        routeTable := table
        needSetRoute := false } = none := Server.route_nests ho' hdata hroutes hto hfrom calls
    rw [Server.receive, hset] at hrun
    simp only [Option.bind_eq_bind, Option.bind_some, hnests, Option.bind_none] at hrun
    cases hrun
  · intro hsettles
    obtain ⟨calls, rfl⟩ := Nat.exists_eq_add_of_le' hcalls
    obtain ⟨s, -, -, -, hrun, -⟩ := Server.receive_serves (h := h) (j := j) (s := { w.server with dson := o }) hshows
      htable ⟨haway, hsettles, hroom⟩ hanswered calls
    exact ⟨s, hrun⟩

/-- Two calls are enough for the client to log in. -/
theorem receive_returns_sample : ∃ (r : Request .little) (o : DsonObj), Arrives .little o r.wire ∧
    ∃ s, { (World.start [r]).server with dson := o }.receive .little (Dson.clearHeader .little) (fun _ => 0) 2 =
      some s := by
  obtain ⟨r, hfrom, hcivil, -⟩ := login_served
  obtain ⟨h, recs, hwire, hl⟩ := r.isLetter
  obtain ⟨o, ho⟩ := hl.isMessage.arrives
  rw [← hwire] at ho
  have hstart : (World.start [r]).run .little (0 + 2) [] = some (World.start [r]) := rfl
  exact ⟨r, o, ho, (receive_returns_iff (c := 12345) [r] (by simp [hfrom]) (by simpa using hcivil) hstart r
    (fun _ => hfrom) hcivil.away hcivil.room ho _ _ (Nat.le_refl 2)).mpr hcivil.settles⟩

end StarRouting

end LeanDson
