import NorFlash.Proofs.Chronicle

/-!
# Sights — what a transaction sees of a device

All that a transaction learns of a device are the status words that it reads and the
bytes that it pulls. `sights` lists them in order, with the bytes that are pushed between
them. `Concluded` says which sights a transaction can have and how it ends after them. The
sights decide that: each stage reads on until it is through, so no list of sights can be
taken apart into stages in two ways.
-/

namespace NorFlash

variable {γ : Type}

/-! ## Sights -/

/-- What passes between driver and device in a transaction. -/
inductive Sight where
  | status (word : UInt32)
  | pushed (byte : UInt8)
  | pulled (byte : UInt8)
  deriving DecidableEq, Repr

def Deed.sight? : Deed → Option Sight
  | .read .status word => some (.status word)
  | .read .rx word => some (.pulled word.toUInt8)
  | .write .tx word => some (.pushed word.toUInt8)
  | _ => none

/-- The sights of deeds, the first one first. -/
def sights : List Deed → List Sight
  | [] => []
  | d :: past => sights past ++ d.sight?.toList

/-! ## What a transaction may see, and how it ends then -/

/-- The outcome of a look for errors. -/
def Status.check (word : UInt32) : Except Error Unit :=
  if hasError word then .error (.protocol word) else .ok ()

/-- The TX FIFO is empty, or an error shows. -/
def Status.settles (word : UInt32) : Bool :=
  hasAny word (txEmpty ||| errors)

/-- The status words of a wait, and whether it was met. -/
inductive Waited (test : UInt32 → Bool) (limit : Nat) : List UInt32 → Bool → Prop where
  /-- `limit` pauses were enough. -/
  | met {misses : List UInt32} {hit : UInt32} (hlen : misses.length ≤ limit)
    (hmisses : ∀ word ∈ misses, test word = false) (hhit : test hit = true) :
    Waited test limit (misses ++ [hit]) true
  | missed {words : List UInt32} (hlen : words.length = limit + 1)
    (hmisses : ∀ word ∈ words, test word = false) : Waited test limit words false

/-- The status words of a FIFO reset. -/
inductive Emptied (limit : Nat) : List UInt32 → Except Error Unit → Prop where
  | already {word : UInt32} (hidle : Status.isIdle word = true) : Emptied limit [word] (.ok ())
  | reset {word : UInt32} {polls : List UInt32} (hidle : Status.isIdle word = false)
    (hwait : Waited Status.isIdle limit polls true) : Emptied limit (word :: polls) (.ok ())
  | never {word last : UInt32} {polls : List UInt32} (hidle : Status.isIdle word = false)
    (hwait : Waited Status.isIdle limit polls false) :
    Emptied limit (word :: (polls ++ [last])) (.error (.timeout .fifoReset))

/-- The status words while a burst runs. An error that shows after the wait is what the
transmission fails with, also when the TX FIFO did not drain. -/
inductive Drained (limit : Nat) : List UInt32 → Except Error Unit → Prop where
  | settled {last : UInt32} {polls : List UInt32}
    (hwait : Waited Status.settles limit polls true) :
    Drained limit (polls ++ [last]) (Status.check last)
  | stalled {last : UInt32} {polls : List UInt32}
    (hwait : Waited Status.settles limit polls false) :
    Drained limit (polls ++ [last])
      (.error (if Status.hasError last then .protocol last else .timeout .txDrain))

/-- The sights of a pull of `expected` bytes, of which `got` are there already, and how it
ends with which further bytes. -/
inductive Collected (expected : Nat) :
    Nat → List Sight → Except Error Unit → Bytes → Prop where
  | underflow {got : Nat} {word : UInt32} (hempty : hasAll word Status.rxEmpty = true)
    (hshort : got < expected) :
    Collected expected got [.status word] (.error (.rxUnderflow expected got)) []
  | pulled {got : Nat} {word : UInt32} {byte : UInt8} {rest : List Sight}
    {outcome : Except Error Unit} {bytes : Bytes}
    (hmore : hasAll word Status.rxEmpty = false) (hshort : got < expected)
    (hrest : Collected expected (got + 1) rest outcome bytes) :
    Collected expected got (.status word :: .pulled byte :: rest) outcome (byte :: bytes)
  | overflow {word : UInt32} (hmore : hasAll word Status.rxEmpty = false) :
    Collected expected expected [.status word] (.error .rxOverflow) []
  | complete {word last : UInt32} (hempty : hasAll word Status.rxEmpty = true) :
    Collected expected expected [.status word, .status last] (Status.check last) []

/-- The sights of one burst with its response, how it ends, and the buffer afterwards. -/
inductive Exchanged (limit : Nat) (command : Bytes) (wanted : Bool) :
    List Sight → Except Error Unit → Bytes → Prop where
  /-- The burst failed. -/
  | failed {polls : List UInt32} {error : Error} (hdrain : Drained limit polls (.error error)) :
    Exchanged limit command wanted (command.map .pushed ++ polls.map .status) (.error error)
      command
  /-- Whatever came back is dropped. -/
  | ignored {polls : List UInt32} {rest : List Sight} {outcome : Except Error Unit}
    {bytes : Bytes} (hdrain : Drained limit polls (.ok ())) (hwanted : wanted = false)
    (hrest : Collected command.length 0 rest outcome bytes) :
    Exchanged limit command wanted (command.map .pushed ++ (polls.map .status ++ rest)) (.ok ())
      command
  /-- What came back is at the front of the buffer. -/
  | collected {polls : List UInt32} {rest : List Sight} {outcome : Except Error Unit}
    {bytes : Bytes} (hdrain : Drained limit polls (.ok ())) (hwanted : wanted = true)
    (hrest : Collected command.length 0 rest outcome bytes) :
    Exchanged limit command wanted (command.map .pushed ++ (polls.map .status ++ rest)) outcome
      (bytes ++ command.drop bytes.length)

/-- The sights of a transaction, how it ends, and the buffer afterwards. -/
inductive Concluded (limit : Nat) (command : Bytes) (wanted : Bool) :
    List Sight → Except Error Unit → Bytes → Prop where
  /-- The FIFOs could not be emptied, and nothing was pushed. -/
  | clogged {words : List UInt32} {error : Error} (hreset : Emptied limit words (.error error)) :
    Concluded limit command wanted (words.map .status) (.error error) command
  /-- The bytes of the command were pushed, all of them and in order. -/
  | exchanged {words : List UInt32} {rest : List Sight} {outcome : Except Error Unit}
    {buffer : Bytes} (hreset : Emptied limit words (.ok ()))
    (hrest : Exchanged limit command wanted rest outcome buffer) :
    Concluded limit command wanted (words.map .status ++ rest) outcome buffer

/-! ## Stages that say when they are through -/

section Decisive

variable {ι κ : Type} {P : List ι → γ → Prop} {xs ys rest rest' : List ι} {u v : γ}

/-- No list of the stage begins another one, and each has one result. -/
def Decisive (P : List ι → γ → Prop) : Prop :=
  ∀ ⦃xs ys u v⦄, P xs u → P ys v → xs <+: ys → xs = ys ∧ u = v

namespace Decisive

/-- Where the stage ends. -/
theorem stage (h : Decisive P) (hu : P xs u) (hv : P ys v) (hle : xs <+: ys ++ rest) :
    xs = ys ∧ u = v := by
  rcases List.prefix_or_prefix_of_prefix hle (List.prefix_append ys rest) with hxs | hys
  · exact h hu hv hxs
  · obtain ⟨hlists, hresults⟩ := h hv hu hys
    exact ⟨hlists.symm, hresults.symm⟩

/-- What is left of both lists behind the stage. -/
theorem split (h : Decisive P) (hu : P xs u) (hv : P ys v) (hle : xs ++ rest <+: ys ++ rest') :
    xs = ys ∧ u = v ∧ rest <+: rest' := by
  obtain ⟨rfl, hresults⟩ := h.stage hu hv ((List.prefix_append xs rest).trans hle)
  exact ⟨rfl, hresults, (List.prefix_append_right_inj xs).mp hle⟩

theorem map (h : Decisive P) {g : ι → κ} (hg : Function.Injective g) :
    Decisive fun zs r => ∃ xs, zs = xs.map g ∧ P xs r := by
  intro xs ys u v hu hv hle
  obtain ⟨xs, rfl, hu⟩ := hu
  obtain ⟨ys, rfl, hv⟩ := hv
  obtain ⟨rfl, hresults⟩ := h hu hv ((List.prefix_map_iff_of_injective hg).mp hle)
  exact ⟨rfl, hresults⟩

end Decisive

end Decisive

theorem Sight.status_injective : Function.Injective Sight.status :=
  fun _ _ h => Sight.status.inj h

variable {test : UInt32 → Bool} {limit expected got : Nat} {command : Bytes} {wanted : Bool}
  {seen rest rest' : List Sight} {outcome outcome' : Except Error Unit}
  {bytes bytes' buffer buffer' : Bytes}

theorem Waited.decisive : Decisive (Waited test limit) := by
  intro xs ys u v hu hv hle
  -- the hit of one wait is no miss of the other
  cases hu with
  | @met misses hit hlen hmisses hhit =>
    have hmem : hit ∈ misses ++ [hit] := by simp
    cases hv with
    | met _ hmisses' _ =>
      rcases List.prefix_concat_iff.mp hle with heq | hle
      · exact ⟨heq, rfl⟩
      · rw [hmisses' hit (hle.subset hmem)] at hhit
        cases hhit
    | missed _ hmisses' =>
      rw [hmisses' hit (hle.subset hmem)] at hhit
      cases hhit
  | missed hlen hmisses =>
    cases hv with
    | @met misses' hit' hlen' _ hhit' =>
      have heq := hle.eq_of_length_le (by
        rw [List.length_append, List.length_singleton, hlen]
        omega)
      rw [hmisses hit' (by rw [heq]; simp)] at hhit'
      cases hhit'
    | missed hlen' _ => exact ⟨hle.eq_of_length (hlen.trans hlen'.symm), rfl⟩

theorem Emptied.decisive : Decisive (Emptied limit) := by
  intro xs ys u v hu hv hle
  cases hu with
  | already hidle =>
    cases hv with
    | already _ => exact ⟨hle.eq_of_length rfl, rfl⟩
    | reset hidle' _ | never hidle' _ =>
      rw [(List.cons_prefix_cons.mp hle).1, hidle'] at hidle
      cases hidle
  | reset hidle hwait =>
    cases hv with
    | already hidle' =>
      rw [(List.cons_prefix_cons.mp hle).1, hidle'] at hidle
      cases hidle
    | reset _ hwait' =>
      obtain ⟨rfl, hpolls⟩ := List.cons_prefix_cons.mp hle
      obtain ⟨rfl, -⟩ := Waited.decisive hwait hwait' hpolls
      exact ⟨rfl, rfl⟩
    | never _ hwait' =>
      cases (Waited.decisive.stage hwait hwait' (List.cons_prefix_cons.mp hle).2).2
  | never hidle hwait =>
    cases hv with
    | already hidle' =>
      rw [(List.cons_prefix_cons.mp hle).1, hidle'] at hidle
      cases hidle
    | reset _ hwait' =>
      have hpolls := (List.prefix_append _ _).trans (List.cons_prefix_cons.mp hle).2
      cases (Waited.decisive hwait hwait' hpolls).2
    | never _ hwait' =>
      obtain ⟨rfl, hpolls⟩ := List.cons_prefix_cons.mp hle
      obtain ⟨rfl, -, hlast⟩ := Waited.decisive.split hwait hwait' hpolls
      rw [hlast.eq_of_length rfl]
      exact ⟨rfl, rfl⟩

theorem Drained.decisive : Decisive (Drained limit) := by
  intro xs ys u v hu hv hle
  cases hu with
  | settled hwait =>
    cases hv with
    | settled hwait' =>
      obtain ⟨rfl, -, hlast⟩ := Waited.decisive.split hwait hwait' hle
      obtain ⟨rfl, -⟩ := List.cons_prefix_cons.mp hlast
      exact ⟨rfl, rfl⟩
    | stalled hwait' => cases (Waited.decisive.split hwait hwait' hle).2.1
  | stalled hwait =>
    cases hv with
    | settled hwait' => cases (Waited.decisive.split hwait hwait' hle).2.1
    | stalled hwait' =>
      obtain ⟨rfl, -, hlast⟩ := Waited.decisive.split hwait hwait' hle
      obtain ⟨rfl, -⟩ := List.cons_prefix_cons.mp hlast
      exact ⟨rfl, rfl⟩

/-- A pull reads on until the RX FIFO is empty or enough bytes are there. -/
theorem Collected.unique (h : Collected expected got seen outcome bytes)
    (h' : Collected expected got seen outcome' bytes') : outcome = outcome' ∧ bytes = bytes' := by
  induction h generalizing bytes' with
  | underflow hempty hshort =>
    cases h' with
    | underflow _ _ => exact ⟨rfl, rfl⟩
    | overflow hmore =>
      rw [hempty] at hmore
      cases hmore
  | pulled hmore hshort hrest ih =>
    cases h' with
    | pulled _ _ hrest' =>
      obtain ⟨houtcome, rfl⟩ := ih hrest'
      exact ⟨houtcome, rfl⟩
  | overflow hmore =>
    cases h' with
    | underflow hempty _ =>
      rw [hempty] at hmore
      cases hmore
    | overflow _ => exact ⟨rfl, rfl⟩
  | complete hempty =>
    cases h' with
    | complete _ => exact ⟨rfl, rfl⟩

/-- Of two stages that begin the same sights each is through where the other one is. -/
theorem Decisive.split_status {P : List UInt32 → γ → Prop} (h : Decisive P)
    {words words' : List UInt32} {u v : γ} (hu : P words u) (hv : P words' v)
    (heq : words.map Sight.status ++ rest = words'.map Sight.status ++ rest') :
    u = v ∧ rest = rest' := by
  have hle : words.map Sight.status ++ rest <+: words'.map Sight.status ++ rest' :=
    heq ▸ List.prefix_refl (words.map Sight.status ++ rest)
  obtain ⟨hwords, hresults, -⟩ := (h.map Sight.status_injective).split ⟨words, rfl, hu⟩
    ⟨words', rfl, hv⟩ hle
  rw [hwords] at heq
  exact ⟨hresults, List.append_cancel_left heq⟩

/-- The response, if the burst did not fail, and the rest of the sights. -/
theorem Exchanged.drained (h : Exchanged limit command wanted seen outcome buffer) :
    ∃ polls r rest, seen = command.map .pushed ++ (polls.map .status ++ rest) ∧
      Drained limit polls r ∧
      match r with
      | .error error => outcome = .error error ∧ buffer = command
      | .ok () => ∃ answer bytes, Collected command.length 0 rest answer bytes ∧
          (wanted = false → outcome = .ok () ∧ buffer = command) ∧
          (wanted = true → outcome = answer ∧ buffer = bytes ++ command.drop bytes.length) := by
  cases h with
  | @failed polls error hdrain => exact ⟨polls, _, [], by simp, hdrain, rfl, rfl⟩
  | @ignored polls rest answer bytes hdrain hwanted hrest =>
    refine ⟨polls, _, rest, rfl, hdrain, answer, bytes, hrest, fun _ => ⟨rfl, rfl⟩, fun hyes => ?_⟩
    rw [hwanted] at hyes
    cases hyes
  | @collected polls rest answer bytes hdrain hwanted hrest =>
    refine ⟨polls, _, rest, rfl, hdrain, _, bytes, hrest, fun hno => ?_, fun _ => ⟨rfl, rfl⟩⟩
    rw [hwanted] at hno
    cases hno

theorem Exchanged.unique (h : Exchanged limit command wanted seen outcome buffer)
    (h' : Exchanged limit command wanted seen outcome' buffer') :
    outcome = outcome' ∧ buffer = buffer' := by
  obtain ⟨polls, r, rest, rfl, hdrain, hanswer⟩ := h.drained
  obtain ⟨polls', r', rest', heq, hdrain', hanswer'⟩ := h'.drained
  obtain ⟨rfl, rfl⟩ := Drained.decisive.split_status hdrain hdrain' (List.append_cancel_left heq)
  rcases r with error | _
  · obtain ⟨rfl, rfl⟩ := hanswer
    obtain ⟨rfl, rfl⟩ := hanswer'
    exact ⟨rfl, rfl⟩
  obtain ⟨answer, bytes, hrest, hno, hyes⟩ := hanswer
  obtain ⟨answer', bytes', hrest', hno', hyes'⟩ := hanswer'
  obtain ⟨rfl, rfl⟩ := hrest.unique hrest'
  cases wanted with
  | false =>
    obtain ⟨rfl, rfl⟩ := hno rfl
    obtain ⟨rfl, rfl⟩ := hno' rfl
    exact ⟨rfl, rfl⟩
  | true =>
    obtain ⟨rfl, rfl⟩ := hyes rfl
    obtain ⟨rfl, rfl⟩ := hyes' rfl
    exact ⟨rfl, rfl⟩

/-- The FIFO reset, and the rest of the sights. -/
theorem Concluded.emptied (h : Concluded limit command wanted seen outcome buffer) :
    ∃ words r rest, seen = words.map .status ++ rest ∧ Emptied limit words r ∧
      match r with
      | .error error => outcome = .error error ∧ buffer = command
      | .ok () => Exchanged limit command wanted rest outcome buffer := by
  cases h with
  | @clogged words error hreset => exact ⟨words, _, [], by simp, hreset, rfl, rfl⟩
  | @exchanged words rest outcome buffer hreset hrest =>
    exact ⟨words, _, rest, rfl, hreset, hrest⟩

/-- **The sights decide how a transaction ends**, and what its buffer holds then. -/
theorem Concluded.unique (h : Concluded limit command wanted seen outcome buffer)
    (h' : Concluded limit command wanted seen outcome' buffer') :
    outcome = outcome' ∧ buffer = buffer' := by
  obtain ⟨words, r, rest, rfl, hreset, hend⟩ := h.emptied
  obtain ⟨words', r', rest', heq, hreset', hend'⟩ := h'.emptied
  obtain ⟨rfl, rfl⟩ := Emptied.decisive.split_status hreset hreset' heq
  rcases r with error | _
  · obtain ⟨rfl, rfl⟩ := hend
    obtain ⟨rfl, rfl⟩ := hend'
    exact ⟨rfl, rfl⟩
  · exact Exchanged.unique hend hend'

end NorFlash
