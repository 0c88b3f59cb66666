import Veduta.Go.JsonBack
import Veduta.Scheduler.Breaker
import Veduta.State.Downsample

/-!
# Publishing a good run

A run that returned a good document passes a second check: the envelope that carries it is
validated as a whole before it is stored and published.  The envelope also carries the history of
every signal that the document binds, and there may be more of those than the envelope allows: a
document has up to twelve blocks with up to four lines each, an envelope up to sixteen histories.
-/

namespace Veduta.Scheduler

open Go Widgets Secrets State Storage Lib

variable {R : Type}
variable {d : Definition R} {stored : Bool} {bound : Option History} {secrets : Option Registry}
  {o : Outcome} {m : Manager R} {cs : CardState}

/-! ## Bound history -/

/-- A row of the query for one signal: the time of the last reading of a bucket, and its mean. -/
abbrev Reading := Bytes × Option ℚ

/-- `SignalHistory`, after its query: what is not in the window is left out. -/
def signalHistory (readings : List Reading) (origin upTo : ℤ) : List Sample :=
  readings.filterMap fun r => (Go.parseTime r.1).bind fun t =>
    if t < origin ∨ upTo < t then none else some ⟨t, r.2⟩

/-- The samples of a bound signal: those of the store, and the one of this run. -/
def boundSamples (readings : Bytes → List Reading) (current : GoMap Bytes ℚ) (upTo : ℤ)
    (signal : Bytes) (window : ℤ) : List Sample :=
  signalHistory (readings signal) (upTo - window) upTo ++
    (current.lookup signal).toList.map fun v => ⟨upTo, some v⟩

def boundPoints (readings : Bytes → List Reading) (current : GoMap Bytes ℚ) (upTo : ℤ)
    (signal : Bytes) (window : ℤ) : List Point :=
  downsample (boundSamples readings current upTo signal window) (upTo - window) upTo

/-- One turn of the loop of `boundHistory`. -/
def boundSignal (readings : Bytes → List Reading) (current : GoMap Bytes ℚ) (upTo : ℤ)
    (out : History) (p : Sigma fun _ : Bytes => ℤ) : Option History :=
  let points := boundPoints readings current upTo p.1 p.2
  if points = [] then some out
  else (points.mapM Point.encode).map fun encoded => out.insert p.1 (Slice.ofList encoded [])

/-- `boundHistory`, given what the query for each signal returns.  There is no result if the time
does not parse, or if a point is not finite: such an envelope has no text, and the store refuses
it. -/
def boundHistory (stored : Bool) (readings : Bytes → List Reading) (doc : Document)
    (generatedAt : Bytes) (current : GoMap Bytes ℚ) : Option (Option History) :=
  let bindings := (historyBindings doc).entries
  if bindings = [] ∨ stored = false then some none
  else (Go.parseTime generatedAt).bind fun upTo =>
    (bindings.foldlM (boundSignal readings current upTo) ∅).map some

def drawn (readings : Bytes → List Reading) (current : GoMap Bytes ℚ) (upTo : ℤ)
    (p : Sigma fun _ : Bytes => ℤ) : Bool :=
  (current.lookup p.1).isSome || (readings p.1).any fun r =>
    (Go.parseTime r.1).any fun t => decide (upTo - p.2 ≤ t ∧ t ≤ upTo)

/-- How many of the signals that the document binds have a reading. -/
def drawnSignals (stored : Bool) (readings : Bytes → List Reading) (doc : Document) (upTo : ℤ)
    (current : GoMap Bytes ℚ) : ℕ :=
  if stored then ((historyBindings doc).entries.filter (drawn readings current upTo)).length else 0

section

variable {readings : Bytes → List Reading} {current : GoMap Bytes ℚ} {upTo : ℤ}
variable {p : Sigma fun _ : Bytes => ℤ} {out out' : History}

theorem historyWindow_pos (window : Bytes) : 0 < historyWindow window := by
  rw [historyWindow]
  split_ifs <;> decide

theorem exists_historyWindow_eq (window : Bytes) :
    ∃ width, 0 < width ∧ historyWindow window = 144 * width := by
  have hhour : hour = 144 * (25 * second) := by decide
  rw [historyWindow, hhour]
  split_ifs
  · exact ⟨25 * second, by decide, rfl⟩
  · exact ⟨6 * (25 * second), by decide, by ring⟩
  · exact ⟨7 * 24 * (25 * second), by decide, by ring⟩
  · exact ⟨24 * (25 * second), by decide, by ring⟩

/-- **The points of a window that a document can ask for**, for any samples: they fit and are in
order, values stand at times of samples, marks between two values, and the newest sample of the
window is the last point. -/
theorem timeline_history (samples : List Sample) (upTo : ℤ) (window : Bytes) :
    ∃ entries, downsample samples (upTo - historyWindow window) upTo = entries.map Entry.point ∧
      Timeline samples (upTo - historyWindow window) upTo entries := by
  obtain ⟨width, hwidth, hwindow⟩ := exists_historyWindow_eq window
  have hend : upTo = upTo - 144 * width + 144 * width := by omega
  have htimeline := @timeline_downsample width samples (upTo - 144 * width) hwidth
  rwa [← hend, ← hwindow] at htimeline

theorem historyBindings_pos {doc : Document} (hp : p ∈ (historyBindings doc).entries) :
    0 < p.2 := by
  have hblock : ∀ b : Block, ∀ q ∈ blockBindings b, 0 < q.2 := by
    intro b q hq
    cases b with
    | series b =>
      simp only [blockBindings, List.mem_flatMap, List.mem_map] at hq
      obtain ⟨h, -, line, -, rfl⟩ := hq
      exact historyWindow_pos h.window
    | _ => cases hq
  have hloop : ∀ (l : List (Bytes × ℤ)) (out : GoMap Bytes ℤ), (∀ q ∈ l, 0 < q.2) →
      (∀ q ∈ out.entries, 0 < q.2) →
      ∀ q ∈ (l.foldl (fun out p => out.insert p.1 p.2) out).entries, 0 < q.2 := by
    intro l out hl hout
    refine List.foldlRecOn (motive := fun m : GoMap Bytes ℤ => ∀ q ∈ m.entries, 0 < q.2) l _ hout
      ?_
    intro m hm x hx q hq
    rw [GoMap.entries_insert, List.mem_cons, List.mem_filter] at hq
    rcases hq with rfl | ⟨hq, -⟩
    · exact hl x hx
    · exact hm q hq
  refine hloop _ ∅ (fun q hq => ?_) (by simp) p hp
  obtain ⟨b, -, hq⟩ := List.mem_flatMap.mp hq
  exact hblock b q hq

theorem drawn_iff :
    drawn readings current upTo p = true ↔ (current.lookup p.1).isSome = true ∨
      ∃ r ∈ readings p.1, ∃ t, Go.parseTime r.1 = some t ∧ upTo - p.2 ≤ t ∧ t ≤ upTo := by
  simp only [drawn, Bool.or_eq_true, List.any_eq_true, Option.any_eq_true, decide_eq_true_eq]

theorem boundPoints_eq_nil_iff (hwindow : 0 < p.2) :
    boundPoints readings current upTo p.1 p.2 = [] ↔ drawn readings current upTo p = false := by
  have hstored : (∀ s ∈ signalHistory (readings p.1) (upTo - p.2) upTo,
      ¬ (upTo - p.2 ≤ s.t ∧ s.t ≤ upTo)) ↔
      ∀ r ∈ readings p.1, ∀ t, Go.parseTime r.1 = some t → ¬ (upTo - p.2 ≤ t ∧ t ≤ upTo) := by
    constructor
    · intro h r hr t ht hin
      refine h ⟨t, r.2⟩ (List.mem_filterMap.mpr ⟨r, hr, ?_⟩) hin
      rw [ht, Option.bind_some, if_neg (by omega)]
    · intro h s hs hin
      obtain ⟨r, hr, hs⟩ := List.mem_filterMap.mp hs
      obtain ⟨t, ht, hs⟩ := Option.bind_eq_some_iff.mp hs
      split_ifs at hs
      cases hs
      exact h r hr t ht hin
  rw [boundPoints, downsample_eq_nil_iff, boundSamples, List.forall_mem_append, hstored,
    Bool.eq_false_iff, ne_eq, drawn_iff]
  cases hcurrent : current.lookup p.1 with
  | none => simp
  | some v => simp [hwindow.le]

theorem length_of_mapM_eq_some {α β : Type} {f : α → Option β} {l : List α} {r : List β}
    (h : l.mapM f = some r) : r.length = l.length := by
  induction l generalizing r with
  | nil =>
    cases h
    rfl
  | cons x l ih =>
    rw [List.mapM_cons] at h
    obtain ⟨y, -, h⟩ := Option.bind_eq_some_iff.mp h
    obtain ⟨ys, hys, h⟩ := Option.bind_eq_some_iff.mp h
    cases h
    rw [List.length_cons, List.length_cons, ih hys]

/-- The history is within the bounds of an envelope, but for the number of its signals. -/
def Fits (h : History) : Prop := ∀ p ∈ h.entries, p.2.elems.length ≤ maxHistoryPoints

theorem fits_empty : Fits ∅ := by
  intro p hp
  cases hp

/-- One turn of the loop adds a signal that has a reading, and only such a signal. -/
theorem boundSignal_spec (hwindow : 0 < p.2) (hnew : out.lookup p.1 = none) (hfits : Fits out)
    (h : boundSignal readings current upTo out p = some out') :
    out'.size = out.size + (if drawn readings current upTo p then 1 else 0) ∧ Fits out' ∧
      ∀ k ≠ p.1, out'.lookup k = out.lookup k := by
  have hnil : boundPoints readings current upTo p.1 p.2 = [] ↔
      drawn readings current upTo p = false := boundPoints_eq_nil_iff hwindow
  rw [boundSignal] at h
  split_ifs at h with hempty
  · cases h
    rw [hnil.mp hempty]
    exact ⟨rfl, hfits, fun _ _ => rfl⟩
  · obtain ⟨encoded, hencoded, hout⟩ := Option.map_eq_some_iff.mp h
    subst hout
    have hdrawn : drawn readings current upTo p = true := by
      rw [← Bool.not_eq_false]
      exact fun hfalse => hempty (hnil.mpr hfalse)
    refine ⟨?_, fun q hq => ?_, fun k hk => AList.lookup_insert_ne hk⟩
    · rw [hdrawn, GoMap.size_insert_of_lookup_eq_none hnew]
      rfl
    · rw [GoMap.entries_insert, List.mem_cons, List.mem_filter] at hq
      rcases hq with rfl | ⟨hq, -⟩
      · change encoded.length ≤ maxHistoryPoints
        rw [length_of_mapM_eq_some hencoded]
        exact length_downsample_le _ _ _
      · exact hfits q hq

/-- **The loop**: as many histories as signals with a reading, each within its bound. -/
theorem foldlM_boundSignal {entries : List (Sigma fun _ : Bytes => ℤ)} (hnodup : entries.NodupKeys)
    (hwindow : ∀ p ∈ entries, 0 < p.2) (hnew : ∀ p ∈ entries, out.lookup p.1 = none)
    (hfits : Fits out) (h : entries.foldlM (boundSignal readings current upTo) out = some out') :
    out'.size = out.size + (entries.filter (drawn readings current upTo)).length ∧ Fits out' := by
  induction entries generalizing out with
  | nil =>
    cases h
    exact ⟨rfl, hfits⟩
  | cons p entries ih =>
    obtain ⟨hp, hnodup⟩ := List.nodupKeys_cons.mp hnodup
    rw [List.foldlM_cons] at h
    obtain ⟨mid, hmid, h⟩ := Option.bind_eq_some_iff.mp h
    obtain ⟨hsize, hfits, hother⟩ := boundSignal_spec (hwindow p List.mem_cons_self)
      (hnew p List.mem_cons_self) hfits hmid
    have hnew' : ∀ q ∈ entries, mid.lookup q.1 = none := by
      intro q hq
      have hne : q.1 ≠ p.1 := by
        intro heq
        exact hp (heq ▸ List.mem_keys_of_mem hq)
      rw [hother q.1 hne]
      exact hnew q (List.mem_cons_of_mem p hq)
    obtain ⟨hsize', hfits'⟩ :=
      ih hnodup (fun q hq => hwindow q (List.mem_cons_of_mem p hq)) hnew' hfits h
    refine ⟨?_, hfits'⟩
    rw [hsize', hsize, List.filter_cons]
    split_ifs
    · rw [List.length_cons]
      omega
    · rfl

end

/-- **The bound history**: as many signals as have a reading, each within its bound. -/
theorem size_boundHistory {readings : Bytes → List Reading} {doc : Document} {now : ℤ}
    {current : GoMap Bytes ℚ} (hclock : representable now = true)
    (h : boundHistory stored readings doc (formatTime now) current = some bound) :
    GoMap.size (bound.getD ∅) = drawnSignals stored readings doc now current ∧
      Fits (bound.getD ∅) := by
  simp only [boundHistory] at h
  split_ifs at h with hnone
  · cases h
    refine ⟨?_, fits_empty⟩
    rw [drawnSignals]
    rcases hnone with hempty | hstored
    · rw [hempty]
      split_ifs <;> rfl
    · rw [hstored]
      rfl
  · rw [not_or, Bool.not_eq_false] at hnone
    obtain ⟨upTo, hparse, h⟩ := Option.bind_eq_some_iff.mp h
    rw [representable, decide_eq_true_eq] at hclock
    cases (parseTime_formatTime hclock.1 hclock.2).symm.trans hparse
    obtain ⟨out, hout, rfl⟩ := Option.map_eq_some_iff.mp h
    have hloop := foldlM_boundSignal (historyBindings doc).nodupKeys
      (fun _ => historyBindings_pos) (fun _ _ => rfl) fits_empty hout
    rw [drawnSignals, hnone.2, if_pos rfl]
    refine ⟨?_, hloop.2⟩
    rw [Option.getD_some, hloop.1]
    exact Nat.zero_add _

theorem validateHistory_eq_ok_iff (h : Fits (bound.getD ∅)) :
    validateHistory bound = .ok () ↔ GoMap.size (bound.getD ∅) ≤ maxHistorySignals := by
  have hlength : (bound.getD ∅).entries.length = GoMap.size (bound.getD ∅) := by
    rw [GoMap.size, AList.keys, List.keys, List.length_map]
  have hfind : ((bound.getD ∅).entries.find? fun p => maxHistoryPoints < p.2.elems.length) =
      none := by
    rw [List.find?_eq_none]
    intro p hp
    simpa using h p hp
  rw [validateHistory, hlength, hfind]
  split_ifs with hmany
  · constructor
    · intro hok
      cases hok
    · omega
  · exact ⟨fun _ => by omega, fun _ => rfl⟩

theorem formatTime_ne_nil (t : ℤ) : formatTime t ≠ [] := by
  simp [formatTime]

theorem wholeSeconds_ne_zero {d : ℤ} (h : second ≤ d) (hlt : d < 2 ^ 63) : wholeSeconds d ≠ 0 := by
  have hsecond : (0 : ℤ) < second := by decide
  have hfraction : ∀ q : ℚ, 0 ≤ q → q ≤ 1 →
      0 ≤ (toFloat64 q).getD 0 ∧ (toFloat64 q).getD 0 ≤ 1 := by
    intro q h0 h1
    cases hq : toFloat64 q with
    | none => norm_num
    | some r => exact toFloat64_unit h0 h1 hq
  have hmod : 0 ≤ d.tmod second ∧ d.tmod second < second :=
    ⟨Int.tmod_nonneg _ (by omega), Int.tmod_lt_of_pos d hsecond⟩
  have hunit := hfraction (d.tmod second / second) (by have := hmod.1; positivity) (by
    rw [div_le_one (by exact_mod_cast hsecond)]
    exact_mod_cast hmod.2.le)
  have hdiv : 1 ≤ d.tdiv second ∧ d.tdiv second < 2 ^ 63 := by
    rw [Int.tdiv_eq_ediv_of_nonneg (by omega)]
    exact ⟨(Int.le_ediv_iff_mul_le hsecond).mpr (by omega),
      (Int.ediv_le_self _ (by omega)).trans_lt hlt⟩
  have hge : (1 : ℚ) ≤ d.tdiv second := by exact_mod_cast hdiv.1
  have hle : (d.tdiv second : ℚ) < 2 ^ 63 := by exact_mod_cast hdiv.2
  obtain ⟨b, hb, hone⟩ := one_le_toFloat64
    (a := d.tdiv second + (toFloat64 (d.tmod second / second)).getD 0) (by linarith [hunit.1])
    (by linarith [hunit.2])
  simp only [wholeSeconds, hb, Option.getD_some]
  have hfloor : 1 ≤ ⌊b⌋ := Int.le_floor.mpr (by exact_mod_cast hone)
  omega

theorem second_le_ttl (d : Definition R) (doc : Document) : second ≤ ttl d doc := le_max_right _ _

theorem ttl_lt (h : d.refresh < 2 ^ 63) (doc : Document) : ttl d doc < 2 ^ 63 := by
  rw [ttl]
  apply max_lt
  · split
    · exact h
    · dsimp only
      split_ifs with hshort
      · exact hshort.2.trans h
      · exact h
  · decide

theorem validate_successState {now : ℤ} (h : d.refresh < 2 ^ 63) (o : Outcome)
    (bound : Option History) : (successState now d o bound).validate = validateHistory bound := by
  have hne : stateOK ≠ statePending := by decide
  have httl := wholeSeconds_ne_zero (second_le_ttl d o.doc) (ttl_lt h o.doc)
  have hstate : validateState (successState now d o bound) = .ok () := by
    simp [validateState, successState, ok, Execution.of, hne, httl, formatTime_ne_nil]
    rfl
  have hcircuit : (successState now d o bound).execution.circuitOpenUntil = [] := rfl
  rw [CardState.validate, hstate, hcircuit]
  rfl

/-! ## Good runs -/

/-- The run returned a document that leaks no secret, whose historical signals are numeric, and
whose bound signals are all retained by the definition. -/
structure GoodRun (secrets : Option Registry) (d : Definition R) (o : Outcome) : Prop where
  err : o.err = none
  leaks : Manager.documentLeaksSecret secrets (some o.doc) = false
  numeric : ∀ name ∈ d.historySignals.keys, ∀ signal,
    (o.doc.signals.getD ∅).lookup name = some signal →
    signal.value = .null ∨ ∃ v, signal.value = .num v
  retained : ∀ signal ∈ (historyBindings o.doc).keys, (d.historySignals.lookup signal).isSome = true

/-- The call has returned without an error, and the card shows a fresh state with the document. -/
def Publishes (m : Manager R) (c : Call R) (doc : Document) : Prop :=
  c.result.any Option.isNone = true ∧ ∃ cs, m.states.lookup c.d.id = some cs ∧
    cs.execution.state = stateOK ∧ cs.document = some doc

theorem exists_foldlM_historicalValue {signals : GoMap Bytes Signal} {names : List Bytes}
    (h : ∀ name ∈ names, ∀ signal, signals.lookup name = some signal →
      signal.value = .null ∨ ∃ v, signal.value = .num v) (values : GoMap Bytes ℚ) :
    ∃ history, names.foldlM (historicalValue signals) values = .ok history := by
  induction names generalizing values with
  | nil => exact ⟨values, rfl⟩
  | cons name names ih =>
    have htail := ih fun n hn => h n (List.mem_cons_of_mem name hn)
    rw [List.foldlM_cons]
    unfold historicalValue
    cases hlookup : signals.lookup name with
    | none => exact htail values
    | some signal =>
      rcases h name List.mem_cons_self signal hlookup with hnull | ⟨v, hv⟩
      · simp only [hnull]
        exact htail values
      · simp only [hv]
        exact htail _

theorem GoodRun.evaluate (h : GoodRun secrets d o) :
    evaluate secrets d o = .ok (samplesOf secrets d o) := by
  obtain ⟨history, hhistory⟩ := exists_foldlM_historicalValue h.numeric ∅
  have hfind : ((historyBindings o.doc).keys.find? fun s => (d.historySignals.lookup s).isNone) =
      none := by
    rw [List.find?_eq_none]
    intro signal hsignal
    simpa using Option.isSome_iff_ne_none.mp (h.retained signal hsignal)
  have heval : Scheduler.evaluate secrets d o = .ok history := by
    rw [Scheduler.evaluate, h.err]
    simp only [h.leaks, historicalValues, hhistory, hfind]
    rfl
  rw [heval, samplesOf_of_ok heval]

theorem lookup_commit {c : Call R} {history : GoMap Bytes ℚ}
    (h : (commit m c cs history stored).2 = none) :
    (commit m c cs history stored).1.states.lookup c.d.id = some cs := by
  rcases commit_cases m c cs history stored with
    ⟨err, heq⟩ | ⟨_, ⟨_, heq⟩ | ⟨s, s', _, _, heq⟩⟩ <;> rw [heq] at h ⊢
  · cases h
  · exact AList.lookup_insert _
  · exact AList.lookup_insert _

theorem commit_eq_none_iff {c : Call R} (hcurrent : m.superseded c.d = false) (hctx : c.ctx = none)
    (history : GoMap Bytes ℚ) : (commit m c cs history true).2 = none ↔ cs.validate = .ok () := by
  constructor
  · intro h
    rw [commit] at h
    cases hvalid : cs.validate with
    | error message =>
      rw [hvalid] at h
      cases h
    | ok _ => rfl
  · intro hvalid
    refine commit_of_accepted hcurrent ?_ history
    rw [accepted, hvalid, hctx]
    simp [Except.isOk, Except.toBool]

/-- **When a good run is shown.**  A refresh records a good run with the history that it reads, and
commits it when no `Apply` has intervened and the store takes the write.  It publishes a fresh state
with the document exactly if at most sixteen of the signals that the document binds have a
reading. -/
theorem good_run_published_iff {m m₁ m₂ m₃ : Manager R} {c c₁ c₃ : Call R} {o : Outcome}
    {now later : ℤ} {readings : Bytes → List Reading} {bound : Option History}
    (hgood : GoodRun m.secrets c.d o) (hout : c.outcome = some o) (hctx : c.ctx = none)
    (hrefresh : c.d.refresh < 2 ^ 63) (hclock : representable now = true)
    (hbound : boundHistory m.store.isSome readings o.doc (formatTime now)
      (samplesOf m.secrets c.d o) = some bound)
    (hrecord : act now m c (.record (some bound)) = some (m₁, c₁))
    (hcurrent : m₂.superseded c.d = false)
    (hcommit : act later m₂ c₁ (.commit true) = some (m₃, c₃)) :
    Publishes m₃ c₃ o.doc ↔
      drawnSignals m.store.isSome readings o.doc now (samplesOf m.secrets c.d o) ≤
        maxHistorySignals := by
  obtain ⟨hsize, hfits⟩ := size_boundHistory hclock hbound
  have hvalid : (successState now c.d o bound).validate = validateHistory bound :=
    validate_successState hrefresh o bound
  rw [← hsize, ← validateHistory_eq_ok_iff hfits, ← hvalid]
  cases acted_of_act hrecord with
  | fail hpc hout' heval =>
    cases hout.symm.trans hout'
    rw [hgood.evaluate] at heval
    cases heval
  | succeed hpc hout' heval =>
    cases hout.symm.trans hout'
    cases acted_of_act hcommit with
    | commit hpc =>
      cases hpc
      rename_i history
      let c₁ : Call R := { c with pc := .commit (successState now c.d o bound) history }
      rw [← commit_eq_none_iff (c := c₁) hcurrent hctx history]
      constructor
      · intro hpub
        simpa [Call.answer] using hpub.1
      · intro hnone
        refine ⟨?_, _, lookup_commit hnone, rfl, rfl⟩
        simpa [Call.answer] using hnone

/-! ## Documents that bind many signals -/

/-- Signals that are named by the first letters. -/
def letters (n : ℕ) : List Bytes := (List.range n).map fun i => [UInt8.ofNat (0x61 + i)]

def seriesText (signals : List Bytes) : Bytes :=
  ascii "\x7b\"type\":\"series\",\"history\":\x7b\"lines\":[" ++
    commas (signals.map fun s =>
      ascii "\x7b\"signal\":\"" ++ s ++ ascii "\",\"label\":\"\"\x7d") ++
    ascii "]\x7d\x7d"

/-- The text of a document that gives the first signals a value and draws them, four to a block. -/
def seriesDocument (n : ℕ) : Bytes :=
  ascii "\x7b\"schemaVersion\":1,\"blocks\":[" ++
    commas (((letters n).toChunks 4).map seriesText) ++ ascii "],\"signals\":\x7b" ++
    commas ((letters n).map fun s => chr '"' :: s ++ ascii "\":\x7b\"value\":1\x7d") ++
    ascii "\x7d\x7d"

def retainingCard (n : ℕ) : Definition Unit :=
  { runningCard with historySignals := GoMap.ofList ((letters n).map fun s => (s, ())) }

/-- The card is applied, and its first run returns the document. -/
def firstRun (n : ℕ) (doc : Document) : List (Event Unit) :=
  startRun (retainingCard n) [.act 0 (.finish doc none)]

/-- The first run of a card returns a document that the gate lets through, and is recorded and
committed. -/
structure FirstRun (n : ℕ) (doc : Document) (w : World Unit) (c : Call Unit)
    (bound : Option History) (m₁ m₃ : Manager Unit) (c₁ c₃ : Call Unit) : Prop where
  document : validate (seriesDocument n) = .ok doc
  run : run step (World.new (some Store.empty) none zeroTime) (firstRun n doc) = some w
  call : w.calls[0]? = some c
  outcome : c.outcome = some ⟨doc, 0, none⟩
  good : GoodRun w.manager.secrets c.d ⟨doc, 0, none⟩
  context : c.ctx = none
  refresh : c.d.refresh < 2 ^ 63
  clock : representable w.now = true
  history : boundHistory w.manager.store.isSome (fun _ => []) doc (formatTime w.now)
    (samplesOf w.manager.secrets c.d ⟨doc, 0, none⟩) = some bound
  record : act w.now w.manager c (.record (some bound)) = some (m₁, c₁)
  current : m₁.superseded c.d = false
  commit : act w.now m₁ c₁ (.commit true) = some (m₃, c₃)

def goodRun (secrets : Option Registry) (d : Definition R) (o : Outcome) : Bool :=
  o.err.isNone && !Manager.documentLeaksSecret secrets (some o.doc) &&
    (d.historySignals.keys.all fun name => ((o.doc.signals.getD ∅).lookup name).all fun signal =>
      match signal.value with
      | .null | .num _ => true
      | _ => false) &&
    (historyBindings o.doc).keys.all fun signal => (d.historySignals.lookup signal).isSome

theorem goodRun_of_eq_true (h : goodRun secrets d o = true) : GoodRun secrets d o := by
  simp only [goodRun, Bool.and_eq_true, List.all_eq_true, Bool.not_eq_true',
    Option.isNone_iff_eq_none] at h
  obtain ⟨⟨⟨herr, hleaks⟩, hnumeric⟩, hretained⟩ := h
  refine ⟨herr, hleaks, fun name hname signal hlookup => ?_, hretained⟩
  have hvalue := hnumeric name hname
  rw [hlookup, Option.all_some] at hvalue
  split at hvalue
  · exact .inl ‹_›
  · exact .inr ⟨_, ‹_›⟩
  · cases hvalue

/-- How many of the signals of a first run are drawn. -/
def drawnFirst (doc : Document) (w : World Unit) (c : Call Unit) : ℕ :=
  drawnSignals w.manager.store.isSome (fun _ => []) doc w.now
    (samplesOf w.manager.secrets c.d ⟨doc, 0, none⟩)

/-- A first run, as a test of how many signals are drawn and how the call ends. -/
def firstRunEnds (n : ℕ) (test : ℕ → Call Unit → Bool) : Bool :=
  accepts (seriesDocument n) fun doc =>
    (run step (World.new (some Store.empty) none zeroTime) (firstRun n doc)).any fun w =>
      (w.calls[0]?).any fun c => goodRun w.manager.secrets c.d ⟨doc, 0, none⟩ && c.ctx.isNone &&
        decide (c.d.refresh < 2 ^ 63) && representable w.now &&
        (boundHistory w.manager.store.isSome (fun _ => []) doc (formatTime w.now)
          (samplesOf w.manager.secrets c.d ⟨doc, 0, none⟩)).any fun bound =>
            (act w.now w.manager c (.record (some bound))).any fun x => !x.1.superseded c.d &&
              (act w.now x.1 x.2 (.commit true)).any fun y => test (drawnFirst doc w c) y.2

theorem outcome_firstRun (n : ℕ) (doc : Document) :
    ((run step (World.new (some Store.empty) none zeroTime) (firstRun n doc)).bind fun w =>
      (w.calls[0]?).bind Call.outcome) = some ⟨doc, 0, none⟩ := by
  rfl

theorem exists_firstRun {n : ℕ} {test : ℕ → Call Unit → Bool} (h : firstRunEnds n test = true) :
    ∃ doc w c bound m₁ m₃ c₁ c₃, FirstRun n doc w c bound m₁ m₃ c₁ c₃ ∧
      test (drawnFirst doc w c) c₃ = true := by
  obtain ⟨doc, hdoc, h⟩ := exists_of_accepts h
  simp only [Option.any_eq_true, Bool.and_eq_true, decide_eq_true_eq, Bool.not_eq_true',
    Option.isNone_iff_eq_none, Prod.exists] at h
  obtain ⟨w, hw, c, hc, ⟨⟨⟨hgood, hctx⟩, hrefresh⟩, hclock⟩, bound, hbound, m₁, c₁, hrecord,
    hcurrent, m₃, c₃, hcommit, htest⟩ := h
  have hout := outcome_firstRun n doc
  rw [hw, Option.bind_some, hc, Option.bind_some] at hout
  exact ⟨doc, w, c, bound, m₁, m₃, c₁, c₃, ⟨hdoc, hw, hc, hout, goodRun_of_eq_true hgood, hctx,
    hrefresh, hclock, hbound, hrecord, hcurrent, hcommit⟩, htest⟩

/-- A document that draws sixteen signals is shown. -/
theorem good_run_published_sixteen :
    ∃ doc w c bound m₁ m₃ c₁ c₃, FirstRun 16 doc w c bound m₁ m₃ c₁ c₃ ∧
      drawnFirst doc w c = 16 ∧ Publishes m₃ c₃ doc := by
  have hends : firstRunEnds 16 (fun k _ => decide (k = 16)) = true := by decide +kernel
  obtain ⟨doc, w, c, bound, m₁, m₃, c₁, c₃, hrun, htest⟩ := exists_firstRun hends
  rw [decide_eq_true_eq] at htest
  refine ⟨doc, w, c, bound, m₁, m₃, c₁, c₃, hrun, htest, ?_⟩
  exact (good_run_published_iff hrun.good hrun.outcome hrun.context hrun.refresh hrun.clock
    hrun.history hrun.record hrun.current hrun.commit).mpr (le_of_eq htest)

/-- **A document that draws seventeen signals is not shown**: the envelope has more histories than
it may, and the refresh returns an error. -/
theorem good_run_refused :
    ∃ doc w c bound m₁ m₃ c₁ c₃, FirstRun 17 doc w c bound m₁ m₃ c₁ c₃ ∧
      ¬ Publishes m₃ c₃ doc := by
  have hends : firstRunEnds 17 (fun _ c => !c.result.any Option.isNone) = true := by
    decide +kernel
  obtain ⟨doc, w, c, bound, m₁, m₃, c₁, c₃, hrun, htest⟩ := exists_firstRun hends
  refine ⟨doc, w, c, bound, m₁, m₃, c₁, c₃, hrun, fun hpub => ?_⟩
  rw [hpub.1] at htest
  cases htest

end Veduta.Scheduler
