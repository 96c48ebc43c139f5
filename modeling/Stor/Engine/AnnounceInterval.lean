import Mathlib.Order.Bounds.Basic
import Stor.Engine.PeerSources

/-!
# The time to the next announce

What `Announcer.announce` returns, and what `Announcer.Run` waits for (`engine/announcer.go`).
The responses are merged under a lock, in the order in which they come.  An interval is a number
of seconds, and its product with the length of a second wraps at 64 bits.  The result is the
least of the default and the wrapped products (`minInterval_isLeast`), so that the order of the
responses does not matter; `isLeast_waits_iff` compares it with the exact products.
-/

namespace Stor.Engine
namespace Sources

open Lib Bencode Tracker

/-- `Run` waits for the default instead of an interval that is not positive. -/
def waitFor (interval : Int64) : Int64 := if interval ≤ 0 then defaultAnnounceInterval else interval

/-- The default, and the waits that the positive intervals of the responses stand for. -/
def waitsBy (wait : Int → Int) (env : Env) (arrivals : List Source) : Set Int :=
  insert (1800 * 1000000000)
    {d | ∃ source ∈ arrivals, ∃ resp, source.response env = some resp ∧ 0 < resp.interval ∧
      d = wait resp.interval}

/-- In nanoseconds, exactly. -/
def waits : Env → List Source → Set Int := waitsBy fun interval => interval * 1000000000

/-- In nanoseconds, as the source multiplies. -/
def wrapped (interval : Int) : Int := (Int64.ofInt interval * 1000000000).toInt

/-- A product that does not fit into 64 bits comes out at no less than another one, or the
default. -/
def Harmless (env : Env) (arrivals : List Source) : Prop :=
  ∀ source ∈ arrivals, ∀ resp, source.response env = some resp →
    2 ^ 63 ≤ resp.interval * 1000000000 → ∃ d ∈ waits env arrivals, d ≤ wrapped resp.interval

/-! ## One response -/

theorem wrapped_eq {interval : Int} (hpos : 0 < interval)
    (hfits : interval * 1000000000 < 2 ^ 63) : wrapped interval = interval * 1000000000 := by
  have hseconds : (Int64.ofInt interval).toInt = interval :=
    Int64.toInt_ofInt_of_le (by omega) (by omega)
  have hsecond : (1000000000 : Int64).toInt = 1000000000 := rfl
  rw [wrapped, Int64.toInt_mul, hseconds, hsecond]
  exact Int.bmod_eq_of_le (by omega) (by omega)

theorem toInt_min (x y : Int64) : (min x y).toInt = min x.toInt y.toInt := by
  show (if x ≤ y then x else y).toInt = _
  rw [Int.min_def]
  simp only [Int64.le_iff_toInt_le]
  split_ifs <;> rfl

/-! ## A round -/

section
variable {env : Env} {arrivals : List Source} {source : Source} {wait : Int → Int}

theorem minInterval_concat (env : Env) (arrivals : List Source) (source : Source) :
    minInterval env (arrivals ++ [source]) =
      (source.response env).elim (minInterval env arrivals) fun resp =>
        if 0 < resp.interval then
          min (Int64.ofInt resp.interval * 1000000000) (minInterval env arrivals)
        else minInterval env arrivals := by
  unfold minInterval
  rw [List.filterMap_append, List.foldl_append]
  cases h : source.response env with
  | none => rw [List.filterMap_cons_none h]; rfl
  | some resp => rw [List.filterMap_cons_some h]; rfl

theorem waitsBy_concat_of_none
    (h : ∀ resp, source.response env = some resp → ¬ 0 < resp.interval) :
    waitsBy wait env (arrivals ++ [source]) = waitsBy wait env arrivals := by
  unfold waitsBy
  congr 1
  ext d
  constructor
  · rintro ⟨source', hsource', resp, hresp, hpos, rfl⟩
    rcases List.mem_append.mp hsource' with hmem | hmem
    · exact ⟨source', hmem, resp, hresp, hpos, rfl⟩
    · rw [List.mem_singleton.mp hmem] at hresp
      exact absurd hpos (h resp hresp)
  · rintro ⟨source', hsource', hrest⟩
    exact ⟨source', List.mem_append_left _ hsource', hrest⟩

theorem waitsBy_concat_of_some {resp : AnnounceResponse} (h : source.response env = some resp)
    (hpos : 0 < resp.interval) :
    waitsBy wait env (arrivals ++ [source]) =
      insert (wait resp.interval) (waitsBy wait env arrivals) := by
  unfold waitsBy
  rw [Set.insert_comm]
  congr 1
  ext d
  constructor
  · rintro ⟨source', hsource', resp', hresp', hpos', rfl⟩
    rcases List.mem_append.mp hsource' with hmem | hmem
    · exact .inr ⟨source', hmem, resp', hresp', hpos', rfl⟩
    · rw [List.mem_singleton.mp hmem, h] at hresp'
      rw [Option.some.inj hresp']
      exact .inl rfl
  · rintro (rfl | ⟨source', hsource', hrest⟩)
    · exact ⟨source, List.mem_append_right _ List.mem_cons_self, resp, h, hpos, rfl⟩
    · exact ⟨source', List.mem_append_left _ hsource', hrest⟩

theorem minInterval_isLeast (env : Env) (arrivals : List Source) :
    IsLeast (waitsBy wrapped env arrivals) (minInterval env arrivals).toInt := by
  induction arrivals using List.reverseRecOn with
  | nil =>
    refine ⟨.inl rfl, ?_⟩
    rintro d (rfl | ⟨source, hsource, -⟩)
    · exact Int.le_refl _
    · exact absurd hsource List.not_mem_nil
  | append_singleton arrivals source ih =>
    rw [minInterval_concat]
    cases hresp : source.response env with
    | none =>
      rw [waitsBy_concat_of_none fun resp h => by rw [hresp] at h; cases h]
      exact ih
    | some resp =>
      rw [Option.elim_some]
      by_cases hpos : 0 < resp.interval
      · rw [if_pos hpos, toInt_min, waitsBy_concat_of_some hresp hpos]
        exact ih.insert _
      · rw [if_neg hpos, waitsBy_concat_of_none]
        · exact ih
        · intro resp' hresp'
          rwa [← Option.some.inj (hresp.symm.trans hresp')]

theorem waitsBy_of_perm {arrivals' : List Source} (h : arrivals.Perm arrivals') :
    waitsBy wait env arrivals = waitsBy wait env arrivals' := by
  unfold waitsBy
  simp only [h.mem_iff]

theorem pos_of_mem_waits {d : Int} (h : d ∈ waits env arrivals) : 0 < d := by
  rcases h with rfl | ⟨source, -, resp, -, hpos, rfl⟩
  · decide
  · dsimp only
    omega

/-- An exact wait within 64 bits is also one of those that the source computes. -/
theorem mem_wrapped_of_mem {d : Int} (h : d ∈ waits env arrivals) (hfits : d < 2 ^ 63) :
    d ∈ waitsBy wrapped env arrivals := by
  rcases h with rfl | ⟨source, hsource, resp, hresp, hpos, rfl⟩
  · exact .inl rfl
  · exact .inr ⟨source, hsource, resp, hresp, hpos, (wrapped_eq hpos hfits).symm⟩

theorem isLeast_waits_iff (env : Env) (arrivals : List Source) :
    IsLeast (waits env arrivals) (minInterval env arrivals).toInt ↔ Harmless env arrivals := by
  have hleast := minInterval_isLeast env arrivals
  have hrange := (minInterval env arrivals).toInt_lt
  constructor
  · intro h source hsource resp hresp hlarge
    exact ⟨_, h.1, hleast.2 (.inr ⟨source, hsource, resp, hresp, by omega, rfl⟩)⟩
  · intro hharmless
    refine ⟨?_, fun d hd => ?_⟩
    · rcases hleast.1 with hdefault | ⟨source, hsource, resp, hresp, hpos, heq⟩
      · exact .inl hdefault
      · by_cases hfits : resp.interval * 1000000000 < 2 ^ 63
        · rw [wrapped_eq hpos hfits] at heq
          exact .inr ⟨source, hsource, resp, hresp, hpos, heq⟩
        · -- the wait that is not above the wrapped one is the result itself
          obtain ⟨d, hd, hle⟩ := hharmless source hsource resp hresp (Int.not_lt.mp hfits)
          have hge := hleast.2 (mem_wrapped_of_mem hd (by omega))
          rwa [show (minInterval env arrivals).toInt = d by omega]
    · by_cases hfits : d < 2 ^ 63
      · exact hleast.2 (mem_wrapped_of_mem hd hfits)
      · omega

/-! ## A source with a long interval -/

section
variable {before after : List Source}
  (hlong : ∀ resp, source.response env = some resp → 1800 ≤ resp.interval)

include hlong

/-- The default is not above what such a source adds. -/
theorem exists_mem_without {d : Int} (hd : d ∈ waits env (before ++ source :: after)) :
    ∃ d' ∈ waits env (before ++ after), d' ≤ d := by
  rcases hd with rfl | ⟨s, hs, resp, hresp, hpos, rfl⟩
  · exact ⟨_, .inl rfl, Int.le_refl _⟩
  · rcases List.mem_append.mp hs with hmem | hmem
    · exact ⟨_, .inr ⟨s, List.mem_append_left _ hmem, resp, hresp, hpos, rfl⟩, Int.le_refl _⟩
    · rcases List.mem_cons.mp hmem with rfl | hmem
      · have hge := hlong resp hresp
        refine ⟨_, .inl rfl, ?_⟩
        dsimp only
        omega
      · exact ⟨_, .inr ⟨s, List.mem_append_right _ hmem, resp, hresp, hpos, rfl⟩, Int.le_refl _⟩

theorem minInterval_longer (hharmless : Harmless env (before ++ source :: after)) :
    minInterval env (before ++ after) = minInterval env (before ++ source :: after) := by
  have hsub : ∀ s ∈ before ++ after, s ∈ before ++ source :: after := fun s hs =>
    (List.mem_append.mp hs).elim (List.mem_append_left _)
      fun h => List.mem_append_right _ (List.mem_cons_of_mem _ h)
  have hharmless' : Harmless env (before ++ after) := by
    intro s hs resp hresp hlarge
    obtain ⟨d, hd, hle⟩ := hharmless s (hsub s hs) resp hresp hlarge
    obtain ⟨d', hd', hle'⟩ := exists_mem_without hlong hd
    exact ⟨d', hd', by omega⟩
  have hwith := (isLeast_waits_iff env _).mpr hharmless
  have hwithout := (isLeast_waits_iff env _).mpr hharmless'
  refine Int64.toInt_inj.mp (Int.le_antisymm ?_ (hwith.2 ?_))
  · obtain ⟨d, hd, hle⟩ := exists_mem_without hlong hwith.1
    exact Int.le_trans (hwithout.2 hd) hle
  · rcases hwithout.1 with heq | ⟨s, hs, hrest⟩
    · exact .inl heq
    · exact .inr ⟨s, hsub s hs, hrest⟩

end

end

/-- The result is the least of the default and the positive intervals exactly if no product
wraps below that.  It is positive then, and an interval that is not below the default changes
nothing.  The order of the responses never matters. -/
theorem announce_isLeast (a : Announcer) (env : Env) (arrivals : List Source) (done : Bool) :
    (IsLeast (waits env arrivals) (a.announce env arrivals done).1.toInt ↔
      Harmless env arrivals) ∧
    (Harmless env arrivals →
      0 < (a.announce env arrivals done).1.toInt ∧
        ∀ before source after, arrivals = before ++ source :: after →
          (∀ resp, source.response env = some resp → 1800 ≤ resp.interval) →
            (a.announce env (before ++ after) done).1 = (a.announce env arrivals done).1) ∧
    ∀ arrivals' done', arrivals.Perm arrivals' →
      (a.announce env arrivals' done').1 = (a.announce env arrivals done).1 := by
  have hiff := isLeast_waits_iff env arrivals
  refine ⟨hiff, fun hharmless => ⟨pos_of_mem_waits (hiff.mpr hharmless).1, ?_⟩,
    fun arrivals' _ hperm => ?_⟩
  · rintro before source after rfl hlong
    exact minInterval_longer hlong hharmless
  · have hleast := minInterval_isLeast env arrivals
    have hleast' := minInterval_isLeast env arrivals'
    rw [← waitsBy_of_perm hperm] at hleast'
    exact Int64.toInt_inj.mp (hleast'.unique hleast)

/-- Trackers at a public address that answer with an interval. -/
def asking (interval : Bytes → Int) : Env where
  net :=
    { parse := fun _ => .ok ⟨ascii "http", ascii "9.9.9.9"⟩
      lookupHost := fun _ => .error []
      get := fun _ url => .ok (encodeValue (.dict [(ascii "interval", .int (interval url))]))
      dialUDP := fun _ => .error [] }
  lookup := none
  scanPort := fun _ => none

/-- A tracker asks for a minute and another one for two hours. -/
theorem announce_isLeast_minute :
    Harmless (asking fun url => if url = ascii "h" then 60 else 7200)
        [.tracker (ascii "h"), .tracker (ascii "g")] ∧
      0 < (Announcer.announce ⟨oneTracker, true⟩
        (asking fun url => if url = ascii "h" then 60 else 7200)
        [.tracker (ascii "h"), .tracker (ascii "g")] false).1.toInt := by
  have hharmless : Harmless (asking fun url => if url = ascii "h" then 60 else 7200)
      [.tracker (ascii "h"), .tracker (ascii "g")] := by
    have hh : Source.response (asking fun url => if url = ascii "h" then 60 else 7200)
        (.tracker (ascii "h")) = some ⟨60, []⟩ := by decide +kernel
    have hg : Source.response (asking fun url => if url = ascii "h" then 60 else 7200)
        (.tracker (ascii "g")) = some ⟨7200, []⟩ := by decide +kernel
    refine List.forall_mem_cons.mpr ⟨fun resp hresp hlarge => ?_, List.forall_mem_cons.mpr
      ⟨fun resp hresp hlarge => ?_, List.forall_mem_nil _⟩⟩
    · rw [← Option.some.inj (hh.symm.trans hresp)] at hlarge
      exact absurd hlarge (by decide)
    · rw [← Option.some.inj (hg.symm.trans hresp)] at hlarge
      exact absurd hlarge (by decide)
  exact ⟨hharmless, ((announce_isLeast _ _ _ _).2.1 hharmless).1⟩

/-- An interval of 18446744074 seconds comes out as 0.29 of them, and `Run` waits for that. -/
theorem announce_wraps :
    (Announcer.announce ⟨oneTracker, true⟩ (asking fun _ => 18446744074) [.tracker (ascii "h")]
        false).1 = 290448384 ∧
      waitFor 290448384 = 290448384 ∧
      (Announcer.announce ⟨oneTracker, true⟩ (asking fun _ => 2 ^ 63 - 1) [.tracker (ascii "h")]
        false).1 = -1000000000 := by
  decide +kernel

end Sources
end Stor.Engine
