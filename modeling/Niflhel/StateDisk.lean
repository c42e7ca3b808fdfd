import Niflhel.Unpack

/-!
# The state disk across operations and kills

Every operation adds changes to the journal or makes the disk durable. From what a change
avoids follows what an operation, a run of operations and a kill leave alone. `Unpublished`
and `Published` are the two phases of the disk: without the marker, and with the marker and
the unpacked tree it stands for.
-/

namespace Niflhel.Guest
open Concurrent FileOps Fsutil Directory

variable {carrier : Carrier} {s s' : State} {t : Root} {o : Op} {name tmp : String}
  {kinds : List (String × Kind)} {c : Change} {digest data : Bytes}

def Change.avoids (name : String) : Change → Bool
  | .create n _ => n != name
  | .remove n => n != name
  | .rename old new => old != name && new != name
  | .write n _ => n != name
  | .edit n _ => n != name

theorem lookup_apply (h : c.avoids name = true) : (c.apply t).lookup name = t.lookup name := by
  cases c with
  | create n e =>
    have hne : name ≠ n := (bne_iff_ne.1 h).symm
    exact lookup_put_ne _ _ hne
  | remove n =>
    have hne : name ≠ n := (bne_iff_ne.1 h).symm
    exact lookup_keep (fun x => x != n) t (bne_iff_ne.2 hne)
  | rename old new =>
    obtain ⟨hold, hnew⟩ := (Bool.and_eq_true _ _).mp h
    simp only [Change.apply]
    split
    · rw [lookup_put_ne _ _ (bne_iff_ne.1 hnew).symm]
      exact lookup_keep (fun x => x != old) t (bne_iff_ne.2 (bne_iff_ne.1 hold).symm)
    · rfl
  | write n d =>
    have hne : name ≠ n := (bne_iff_ne.1 h).symm
    simp only [Change.apply]
    split
    · exact lookup_put_ne _ _ hne
    · rfl
  | edit n e =>
    have hne : name ≠ n := (bne_iff_ne.1 h).symm
    simp only [Change.apply]
    split
    · exact lookup_put_ne _ _ hne
    · rfl

theorem lookup_foldl {cs : List Change} (h : ∀ c ∈ cs, c.avoids name = true) :
    (cs.foldl Change.apply t).lookup name = t.lookup name :=
  Volatile.Store.foldl_keeps (P := fun x : Root => x.lookup name = t.lookup name)
    (fun c hc _ hx => (lookup_apply (h c hc)).trans hx) rfl

theorem lookup_settle (which : String → Bool) : (settle which t).lookup name =
      (t.lookup name).map fun e => if which name then e.settled else e :=
  lookup_mapFiles ..

def Op.spares (name : String) : Op → Prop
  | .state (.createTemp _ pattern) => pattern.toList.isPrefixOf name.toList = false
  | .state (.write _ n _) => n ≠ name
  | .state (.rename _ old new) => old ≠ name ∧ new ≠ name
  | .state (.remove _ n) => n ≠ name
  | .mkdirAll n => n ≠ name
  | .mkdir n => n ≠ name
  | .removeAll n => n ≠ name
  | .edit n _ => n ≠ name
  | _ => True

/-- What an operation does: it adds changes to the journal, or makes them durable. -/
inductive Effect (o : Op) (s : State) : State → Prop where
  | note (cs : List Change) (h : ∀ c ∈ cs, ∀ name, o.spares name → c.avoids name = true) :
      Effect o s (s.note cs)
  | commit (which : String → Bool) : Effect o s (s.commit which)

theorem Effect.same : Effect o s s := by
  have h := Effect.note (o := o) (s := s) [] (by simp)
  rwa [Volatile.Store.note, List.append_nil] at h

theorem Effect.one (h : ∀ name, o.spares name → c.avoids name = true) : Effect o s (s.note [c]) :=
  .note [c] fun _ hc => List.mem_singleton.1 hc ▸ h

theorem effect_of_execState {o : FileOps.Op Unit} {r : o.Reply}
    (hx : execState s o r = some s') : Effect (.state o) s s' := by
  cases o with
  | createTemp d pattern =>
    cases r with
    | error e => cases hx; exact .same
    | ok name =>
      simp only [execState] at hx
      split_ifs at hx with h
      refine Option.some.inj hx ▸ .one fun other hother => ?_
      simp only [Op.spares] at hother
      simp only [Change.avoids, bne_iff_ne]
      rintro rfl
      simp [hother] at h
  | write d name data =>
    obtain ⟨n, e⟩ := r
    simp only [execState] at hx
    split_ifs at hx
    refine Option.some.inj hx ▸ .one fun other hother => ?_
    exact bne_iff_ne.2 hother
  | rename d old new =>
    cases r with
    | some e => cases hx; exact .same
    | none =>
      simp only [execState] at hx
      split at hx
      · cases hx
      · cases hx
      · refine Option.some.inj hx ▸ .one fun other hother => ?_
        exact (Bool.and_eq_true _ _).mpr ⟨bne_iff_ne.2 hother.1, bne_iff_ne.2 hother.2⟩
  | remove d name =>
    cases r with
    | failed e => cases hx; exact .same
    | missing =>
      simp only [execState] at hx
      split_ifs at hx
      cases hx; exact .same
    | done =>
      simp only [execState] at hx
      split at hx
      · refine Option.some.inj hx ▸ .one fun other hother => ?_
        exact bne_iff_ne.2 hother
      · cases hx
  | readFile d name =>
    cases r with
    | error e => cases hx; exact .same
    | ok content =>
      simp only [execState] at hx
      split at hx
      · split_ifs at hx
        cases hx; exact .same
      · cases hx
  | readDir d =>
    cases r with
    | error e => cases hx; exact .same
    | ok names =>
      simp only [execState] at hx
      split_ifs at hx
      cases hx; exact .same
  | sync | syncDir =>
    cases r with
    | some e => cases hx; exact .same
    | none => exact Option.some.inj hx ▸ .commit _
  | mkdirAll | chmod | close => cases hx; exact .same

theorem effect_of_exec {r : o.Reply} (hx : exec carrier s o r = some s') : Effect o s s' := by
  cases o with
  | state o => exact effect_of_execState hx
  | readMarker =>
    simp only [exec] at hx
    split_ifs at hx
    cases hx; exact .same
  | mkdirAll name =>
    cases r with
    | some e => cases hx; exact .same
    | none =>
      simp only [exec] at hx
      split at hx
      · refine Option.some.inj hx ▸ .one fun other hother => ?_
        exact bne_iff_ne.2 hother
      · cases hx; exact .same
      · cases hx
  | mkdir name =>
    cases r with
    | some e => cases hx; exact .same
    | none =>
      simp only [exec] at hx
      split_ifs at hx
      refine Option.some.inj hx ▸ .one fun other hother => ?_
      exact bne_iff_ne.2 hother
  | removeAll name =>
    cases r with
    | none =>
      refine Option.some.inj hx ▸ .note _ fun c hc other hother => ?_
      rcases List.mem_append.1 hc with hc | hc
      · obtain ⟨p, _, rfl⟩ := List.mem_map.1 hc
        exact bne_iff_ne.2 hother
      · rw [List.mem_singleton.1 hc]
        exact bne_iff_ne.2 hother
    | some left =>
      refine Option.some.inj hx ▸ .note _ fun c hc other hother => ?_
      obtain ⟨p, _, rfl⟩ := List.mem_map.1 hc
      exact bne_iff_ne.2 hother
  | readImage =>
    cases r with
    | error e => cases hx; exact .same
    | ok img =>
      simp only [exec] at hx
      split_ifs at hx
      cases hx; exact .same
  | readBlob h =>
    cases r with
    | error e => cases hx; exact .same
    | ok content =>
      simp only [exec] at hx
      split_ifs at hx
      cases hx; exact .same
  | edit name e =>
    cases r with
    | some e => cases hx; exact .same
    | none =>
      simp only [exec] at hx
      split at hx
      · refine Option.some.inj hx ▸ .one fun other hother => ?_
        exact bne_iff_ne.2 hother
      · cases hx
  | outside args => cases hx; exact .same
  | sync => exact Option.some.inj hx ▸ .commit _

def Tree (name : String) (kinds : List (String × Kind)) (t : Root) : Prop :=
  ∃ nodes, t.lookup name = some (.dir nodes) ∧ mapFiles (fun _ n => n.kind) nodes = kinds

structure Unpublished (s : State) : Prop where
  base : s.base.lookup marker = none
  journal : ∀ c ∈ s.journal, c.avoids marker = true

structure Bare (s : State) : Prop where
  base : ∀ nodes, s.base.lookup "lower" = some (.dir nodes) → nodes = []
  journal : ∀ c ∈ s.journal, c.avoids "lower" = true ∨ c = .create "lower" (.dir [])

/-- The marker is there, or its rename is the first change of the journal; the tree is durable
up to the data of its files. -/
inductive Published (digest : Bytes) (kinds : List (String × Kind)) (s : State) : Prop where
  | durable (hm : s.base.lookup marker = some (.file digest true)) (hl : Tree "lower" kinds s.base)
      (hj : ∀ c ∈ s.journal, c.avoids marker = true ∧ c.avoids "lower" = true)
  | pending (tmp : String) (rest : List Change) (hm : s.base.lookup marker = none)
      (htmp : s.base.lookup tmp = some (.file digest true)) (hl : Tree "lower" kinds s.base)
      (hne : tmp ≠ "lower") (hj : s.journal = .rename tmp marker :: rest)
      (hrest : ∀ c ∈ rest, c.avoids marker = true ∧ c.avoids "lower" = true)

theorem Tree.congr {t' : Root} (h : Tree name kinds t) (he : t'.lookup name = t.lookup name) :
    Tree name kinds t' := by
  obtain ⟨nodes, hn, hk⟩ := h
  exact ⟨nodes, he.trans hn, hk⟩

theorem Tree.settle (h : Tree name kinds t) (which : String → Bool) :
    Tree name kinds (settle which t) := by
  obtain ⟨nodes, hn, hk⟩ := h
  unfold Tree
  rw [lookup_settle, hn]
  cases which name with
  | false => exact ⟨nodes, rfl, hk⟩
  | true =>
    refine ⟨_, rfl, ?_⟩
    rw [← hk]
    simp only [mapFiles, List.map_map]
    rfl

theorem Tree.effect (h : Tree name kinds s.live) (he : Effect o s s') (ho : o.spares name) :
    Tree name kinds s'.live := by
  cases he with
  | note cs hcs =>
    refine h.congr ?_
    rw [State.live, Volatile.Store.live_note]
    exact lookup_foldl fun c hc => hcs c hc name ho
  | commit which => exact h.settle which

theorem Unpublished.lookup_live (h : Unpublished s) : s.live.lookup marker = none :=
  (lookup_foldl h.journal).trans h.base

theorem Unpublished.effect (h : Unpublished s) (he : Effect o s s') (ho : o.spares marker) :
    Unpublished s' := by
  cases he with
  | note cs hcs =>
    refine ⟨h.base, fun c hc => ?_⟩
    rcases List.mem_append.1 hc with hc | hc
    · exact h.journal c hc
    · exact hcs c hc marker ho
  | commit which =>
    refine ⟨?_, fun c hc => nomatch hc⟩
    rw [State.commit, Volatile.Store.commit, lookup_settle]
    exact Option.map_eq_none_iff.2 h.lookup_live

theorem Bare.keeps (h : Bare s) : ∀ c ∈ s.journal, ∀ t : Root,
    (∀ nodes, t.lookup "lower" = some (.dir nodes) → nodes = []) →
      ∀ nodes, (c.apply t).lookup "lower" = some (.dir nodes) → nodes = [] := by
  intro c hc t ht nodes hn
  rcases h.journal c hc with havoid | rfl
  · rw [lookup_apply havoid] at hn
    exact ht nodes hn
  · rw [Change.apply, lookup_put_self] at hn
    exact (Entry.dir.inj (Option.some.inj hn)).symm

theorem Bare.live (h : Bare s) {nodes : List (String × Node)}
    (hn : s.live.lookup "lower" = some (.dir nodes)) : nodes = [] :=
  Volatile.Store.live_keeps (P := fun t : Root => ∀ nodes, t.lookup "lower" = some (.dir nodes) →
    nodes = []) h.keeps h.base nodes hn

theorem Bare.commit (h : Bare s) (which : String → Bool) : Bare (s.commit which) := by
  refine ⟨fun nodes hn => ?_, fun c hc => nomatch hc⟩
  rw [State.commit, Volatile.Store.commit, lookup_settle] at hn
  obtain ⟨e, he, hset⟩ := Option.map_eq_some_iff.1 hn
  cases e with
  | file data synced => cases hw : which "lower" <;> simp [hw, Entry.settled] at hset
  | dir ns =>
    obtain rfl := h.live he
    cases hw : which "lower" <;> simpa [hw, Entry.settled, mapFiles, eq_comm] using hset

theorem Bare.effect (h : Bare s) (he : Effect o s s') (ho : o.spares "lower") : Bare s' := by
  cases he with
  | note cs hcs =>
    refine ⟨h.base, fun c hc => ?_⟩
    rcases List.mem_append.1 hc with hc | hc
    · exact h.journal c hc
    · exact .inl (hcs c hc "lower" ho)
  | commit which => exact h.commit which

/-- What is visible once the marker is published. -/
theorem Published.live (h : Published digest kinds s) :
    s.live.lookup marker = some (.file digest true) ∧ Tree "lower" kinds s.live ∧
      s.live.lookup "lower" = s.base.lookup "lower" := by
  cases h with
  | durable hm hl hj =>
    have hlower : s.live.lookup "lower" = s.base.lookup "lower" := lookup_foldl fun c hc => (hj c hc).2
    exact ⟨(lookup_foldl fun c hc => (hj c hc).1).trans hm, hl.congr hlower, hlower⟩
  | pending tmp rest hm htmp hl hne hj hrest =>
    have hlive : s.live = rest.foldl Change.apply (Change.apply s.base (.rename tmp marker)) := by
      rw [State.live, Volatile.Store.live, hj, List.foldl_cons]
    have hrename : Change.apply s.base (.rename tmp marker) =
        put (keep (fun n => n != tmp) s.base) marker (.file digest true) := by
      simp only [Change.apply, htmp]
    have hmarker : s.live.lookup marker = some (.file digest true) := by
      rw [hlive, lookup_foldl fun c hc => (hrest c hc).1, hrename, lookup_put_self]
    have havoid : (Change.rename tmp marker).avoids "lower" = true := by
      simp [Change.avoids, hne, marker]
    have hlower : s.live.lookup "lower" = s.base.lookup "lower" := by
      rw [hlive, lookup_foldl fun c hc => (hrest c hc).2, lookup_apply havoid]
    exact ⟨hmarker, hl.congr hlower, hlower⟩

theorem Published.effect (h : Published digest kinds s) (he : Effect o s s')
    (hm : o.spares marker) (hl : o.spares "lower") : Published digest kinds s' := by
  cases he with
  | commit which =>
    obtain ⟨hmarker, htree, _⟩ := h.live
    refine .durable ?_ (htree.settle which) fun c hc => nomatch hc
    rw [State.commit, Volatile.Store.commit, lookup_settle]
    rw [State.live] at hmarker
    rw [hmarker]
    cases which marker <;> rfl
  | note cs hcs =>
    have hnew : ∀ c ∈ cs, c.avoids marker = true ∧ c.avoids "lower" = true :=
      fun c hc => ⟨hcs c hc marker hm, hcs c hc "lower" hl⟩
    cases h with
    | durable hm hl hj =>
      refine .durable hm hl fun c hc => ?_
      rcases List.mem_append.1 hc with hc | hc
      · exact hj c hc
      · exact hnew c hc
    | pending tmp rest hm htmp hl hne hj hrest =>
      refine .pending tmp (rest ++ cs) hm htmp hl hne ?_ fun c hc => ?_
      · rw [Volatile.Store.note, hj, List.cons_append]
      · rcases List.mem_append.1 hc with hc | hc
        · exact hrest c hc
        · exact hnew c hc

theorem lookup_kill (l : Loss) : (kill l s).base.lookup name =
    ((s.survive Change.apply l.mask).lookup name).map fun e => e.lose (l.data name) :=
  lookup_mapFiles (fun name (e : Entry) => e.lose (l.data name)) _ name

theorem Unpublished.killed (h : Unpublished s) (l : Loss) : Unpublished (kill l s) := by
  refine ⟨?_, fun c hc => nomatch hc⟩
  have hbase : (s.survive Change.apply l.mask).lookup marker = none :=
    Volatile.Store.survive_keeps (P := fun t : Root => t.lookup marker = none)
      (fun c hc _ ht => (lookup_apply (h.journal c hc)).trans ht) h.base l.mask
  rw [lookup_kill, hbase]
  rfl

theorem Bare.killed (h : Bare s) (l : Loss) : Bare (kill l s) := by
  refine ⟨fun nodes hn => ?_, fun c hc => nomatch hc⟩
  rw [lookup_kill] at hn
  obtain ⟨e, he, hlose⟩ := Option.map_eq_some_iff.1 hn
  cases e with
  | file data synced => cases hlose
  | dir ns =>
    have hnil : ns = [] := Volatile.Store.survive_keeps (P := fun t : Root => ∀ nodes,
      t.lookup "lower" = some (.dir nodes) → nodes = []) h.keeps h.base l.mask ns he
    subst hnil
    exact (Entry.dir.inj hlose).symm

theorem Tree.lose {nodes : List (String × Node)} {lost : String → Option Bytes}
    (h : ∀ x ∈ nodes, x.2.synced = true ∨ lost x.1 = none) :
    mapFiles (fun _ n => n.kind) (mapFiles (fun path n => n.lose (lost path)) nodes) =
      mapFiles (fun _ n => n.kind) nodes := by
  simp only [mapFiles, List.map_map]
  refine List.map_congr_left fun x hx => ?_
  obtain ⟨path, ⟨kind, synced⟩⟩ := x
  rcases h _ hx with hsynced | hlost
  · obtain rfl : synced = true := hsynced
    rfl
  · simp only [Function.comp_apply, Node.lose, hlost]
    cases synced with
    | true => rfl
    | false => cases kind <;> rfl

theorem Published.killed (h : Published digest kinds s) (l : Loss)
    (hl : ∀ nodes, s.live.lookup "lower" = some (.dir nodes) →
      ∀ x ∈ nodes, x.2.synced = true ∨ l.data "lower" x.1 = none) :
    Published digest kinds (kill l s) ∨ Unpublished (kill l s) := by
  -- the kill keeps the tree whichever changes survive
  have hkept : (s.survive Change.apply l.mask).lookup "lower" = s.base.lookup "lower" →
      Tree "lower" kinds (kill l s).base := by
    intro hlower
    obtain ⟨_, ⟨nodes, hnodes, hkinds⟩, hlive⟩ := h.live
    refine ⟨_, ?_, (Tree.lose (hl nodes hnodes)).trans hkinds⟩
    rw [lookup_kill, hlower, ← hlive, hnodes]
    rfl
  have hno : ∀ c ∈ (kill l s).journal, c.avoids marker = true ∧ c.avoids "lower" = true :=
    fun c hc => nomatch hc
  have hmarked : (s.survive Change.apply l.mask).lookup marker = some (.file digest true) →
      (kill l s).base.lookup marker = some (.file digest true) := by
    intro hm
    rw [lookup_kill, hm]
    rfl
  cases h with
  | durable hm htree hj =>
    have hpick : ∀ c ∈ Volatile.pick l.mask s.journal, c.avoids marker = true ∧
        c.avoids "lower" = true := fun c hc => hj c ((Volatile.pick_sublist _ _).subset hc)
    refine .inl (.durable (hmarked ?_) (hkept ?_) hno)
    · exact (lookup_foldl fun c hc => (hpick c hc).1).trans hm
    · exact lookup_foldl fun c hc => (hpick c hc).2
  | pending tmp rest hm htmp htree hne hj hrest =>
    have hpick : ∀ mask, ∀ c ∈ Volatile.pick mask rest, c.avoids marker = true ∧
        c.avoids "lower" = true := fun mask c hc => hrest c ((Volatile.pick_sublist _ _).subset hc)
    -- without the rename there is no marker
    have hlost : ∀ mask, s.survive Change.apply l.mask = (Volatile.pick mask rest).foldl Change.apply s.base →
        Unpublished (kill l s) := by
      intro mask hsurvive
      refine ⟨?_, fun c hc => nomatch hc⟩
      rw [lookup_kill, hsurvive, lookup_foldl fun c hc => (hpick mask c hc).1, hm]
      rfl
    cases hmask : l.mask with
    | nil => exact .inr (hlost [] (by simp [Volatile.Store.survive, hmask, Volatile.pick]))
    | cons bit mask =>
      cases bit with
      | false => exact .inr (hlost mask (by simp [Volatile.Store.survive, hmask, hj, Volatile.pick]))
      | true => ?_
      have hsurvive : s.survive Change.apply l.mask =
          (Volatile.pick mask rest).foldl Change.apply
            (put (keep (fun n => n != tmp) s.base) marker (.file digest true)) := by
        simp only [Volatile.Store.survive, hmask, hj, Volatile.pick, List.foldl_cons,
          Change.apply, htmp]
      refine .inl (.durable (hmarked ?_) (hkept ?_) hno)
      · rw [hsurvive, lookup_foldl fun c hc => (hpick mask c hc).1, lookup_put_self]
      · rw [hsurvive, lookup_foldl fun c hc => (hpick mask c hc).2,
          lookup_put_ne _ _ (by decide)]
        exact lookup_keep (fun n => n != tmp) s.base (bne_iff_ne.2 hne.symm)

end Niflhel.Guest
