import EspClock.Bytecode.Undump

/-!
# A chunk loads back

The loader gives back the function that was dumped, with its debug information or, from a stripped chunk, without: over any
reader that hands out the chunk in any pieces, and in either order of the bytes. A chunk that was cut off anywhere is
refused.
-/

namespace EspClock.Bytecode

open Octets Serial

/-! ### Streams -/

section Stream

variable {σ : Type} {R : Reader σ}

/-- A reader that hands out certain bytes in pieces of any length, and answers null when it is asked for an address. -/
inductive Delivers (R : Reader σ) : σ → List UInt8 → Prop
  | done {d : σ} (hnull : R.answersNull d = true) (hend : (R.next d).1 = none ∨ (R.next d).1 = some []) : Delivers R d []
  | more {d d' : σ} {c : UInt8} {cs s : List UInt8} (hnull : R.answersNull d = true) (hnext : R.next d = (some (c :: cs), d'))
      (hrest : Delivers R d' s) : Delivers R d (c :: cs ++ s)

/-- The bytes that a stream will give. -/
def Zio.Holds (R : Reader σ) (z : Zio σ) (s : List UInt8) : Prop := ∃ t, s = z.p ++ t ∧ Delivers R z.data t

theorem Delivers.answersNull {d : σ} {s : List UInt8} (h : Delivers R d s) : R.answersNull d = true := by
  cases h <;> assumption

theorem Zio.Holds.lookahead_nil {z : Zio σ} (h : z.Holds R []) : (z.lookahead R).1 = none := by
  obtain ⟨t, hs, ht⟩ := h
  obtain ⟨hp, rfl⟩ := List.append_eq_nil_iff.mp hs.symm
  rw [Zio.lookahead, hp]
  generalize hnil : ([] : List UInt8) = s at ht
  cases ht with
  | done _ hend => rcases hnext : R.next z.data with ⟨_ | _ | _, _⟩ <;> simp [hnext] at hend ⊢
  | more => simp at hnil

theorem Zio.Holds.lookahead_cons {z : Zio σ} {c : UInt8} {s : List UInt8} (h : z.Holds R (c :: s)) :
    ∃ cs d, z.lookahead R = (some c, ⟨c :: cs, d⟩) ∧ Zio.Holds R ⟨c :: cs, d⟩ (c :: s) := by
  obtain ⟨t, hs, ht⟩ := h
  obtain ⟨p, data⟩ := z
  cases p with
  | cons b bs =>
    obtain ⟨rfl, -⟩ := List.cons_eq_cons.mp hs
    exact ⟨bs, data, rfl, t, hs, ht⟩
  | nil =>
    have hs' : c :: s = t := hs
    subst hs'
    generalize hcons : c :: s = s' at ht
    cases ht with
    | done => cases hcons
    | more hnull hnext hrest =>
      obtain ⟨rfl, rfl⟩ := List.cons_eq_cons.mp hcons
      refine ⟨_, _, ?_, _, rfl, hrest⟩
      simp only [Zio.lookahead, hnext]

/-- The bytes across the pieces, as far as there are any. -/
theorem Zio.readLoop_spec {turns n : Nat} {z : Zio σ} {s : List UInt8} (h : z.Holds R s) (hturns : n ≤ turns) :
    (n ≤ s.length → ∃ z', z.readLoop R turns n = (s.take n, 0, z') ∧ z'.Holds R (s.drop n)) ∧
      (s.length < n → (z.readLoop R turns n).2.1 ≠ 0) := by
  induction turns generalizing n z s with
  | zero =>
    obtain rfl := Nat.le_zero.mp hturns
    exact ⟨fun _ => ⟨z, rfl, h⟩, fun hlt => absurd hlt (Nat.not_lt_zero _)⟩
  | succ turns ih =>
    by_cases hn : n = 0
    · subst hn
      exact ⟨fun _ => ⟨z, rfl, h⟩, fun hlt => absurd hlt (Nat.not_lt_zero _)⟩
    · rw [Zio.readLoop, if_neg hn]
      cases s with
      | nil =>
        have hnone := h.lookahead_nil
        rcases hlook : z.lookahead R with ⟨_ | c, z'⟩
        · exact ⟨fun hle => absurd (Nat.le_zero.mp hle) hn, fun _ => hn⟩
        · rw [hlook] at hnone
          cases hnone
      | cons c s =>
        obtain ⟨cs, d, hlook, t, hs, ht⟩ := h.lookahead_cons
        rw [hlook]
        have hrest : Zio.Holds R ⟨(c :: cs).drop (min n (c :: cs).length), d⟩ ((c :: s).drop (min n (c :: cs).length)) :=
          ⟨t, by rw [hs, List.drop_append_of_le_length (Nat.min_le_right _ _)], ht⟩
        have hlen : 0 < (c :: cs).length := Nat.succ_pos _
        have hstep := ih hrest (n := n - min n (c :: cs).length) (by omega)
        have hstart : (c :: s).take (min n (c :: cs).length) = (c :: cs).take (min n (c :: cs).length) := by
          rw [hs, List.take_append_of_le_length (Nat.min_le_right _ _)]
        have hfits : (c :: cs).length ≤ (c :: s).length := by
          rw [hs, List.length_append]
          exact Nat.le_add_right _ _
        have hsplit : min n (c :: cs).length + (n - min n (c :: cs).length) = n := Nat.add_sub_of_le (Nat.min_le_left _ _)
        constructor
        · intro hle
          obtain ⟨z', hloop, hz'⟩ := hstep.1 (by rw [List.length_drop]; omega)
          refine ⟨z', ?_, ?_⟩
          · have htake := List.take_add (l := c :: s) (i := min n (c :: cs).length) (j := n - min n (c :: cs).length)
            rw [hsplit] at htake
            simp only [hloop, htake, hstart]
          · rw [List.drop_drop, hsplit] at hz'
            exact hz'
        · intro hlt
          exact hstep.2 (by rw [List.length_drop]; omega)

theorem Zio.read_of_le {n : Nat} {z : Zio σ} {s : List UInt8} (h : z.Holds R s) (hn : n ≤ s.length) :
    ∃ z', z.read R n = (s.take n, 0, z') ∧ z'.Holds R (s.drop n) := (z.readLoop_spec h (Nat.le_refl n)).1 hn

theorem Zio.read_of_lt {n : Nat} {z : Zio σ} {s : List UInt8} (h : z.Holds R s) (hn : s.length < n) :
    (z.read R n).2.1 ≠ 0 := (z.readLoop_spec h (Nat.le_refl n)).2 hn

/-- A state of the loader as a place in a stream. -/
def place (R : Reader σ) : View (LoadState σ) where
  holds st s := st.z.Holds R s
  offset := LoadState.total

end Stream

/-! ### Blocks and numbers -/

section Values

variable {σ : Type} {R : Reader σ} {H : Host} {S : Format} {target : DumpTargetInfo}

/-- The loader reads back what a part of the dump writes, and misses the end of a part that was cut off. -/
abbrev ReadsBack {α : Type} (R : Reader σ) (S : Format) (ops : List Op) (p : Load σ α) (a : α) : Prop :=
  Codes 4 (place R) (message S.name "unexpected end") ops p a

theorem loadBlock_apply (size : Nat) (st : LoadState σ) :
    loadBlock R S size st = if (st.z.read R size).2.1 ≠ 0 then .error (message S.name "unexpected end")
      else .ok ((st.z.read R size).1, ⟨(st.z.read R size).2.2, st.total + size⟩) := by
  show (if (st.z.read R size).2.1 ≠ 0 then _ else _ : Load σ (List UInt8)) st = _
  split <;> rfl

theorem readsBack_block (b : List UInt8) : ReadsBack R S [.block b] (loadBlock R S b.length) b where
  whole {st s} h := by
    rw [layout_block] at h ⊢
    obtain ⟨z', hread, hrest⟩ := st.z.read_of_le (n := b.length) h (by simp)
    rw [List.take_left] at hread
    rw [List.drop_left] at hrest
    refine ⟨⟨z', st.total + b.length⟩, ?_, hrest, rfl⟩
    rw [loadBlock_apply, hread]
    rfl
  cut {st t} h ht hne := by
    rw [layout_block] at ht hne
    have hlt : t.length < b.length := by
      refine Nat.lt_of_le_of_ne ht.length_le ?_
      intro heq
      exact hne (ht.eq_of_length heq)
    rw [loadBlock_apply, if_pos (st.z.read_of_lt h hlt)]

theorem readsBack_directMode : ReadsBack R S [] (luaZDirectMode R) () where
  whole {st s} h := by
    obtain ⟨t, hs, ht⟩ := h
    refine ⟨st, ?_, ⟨t, hs, ht⟩, rfl⟩
    show (if R.answersNull st.z.data then _ else _ : Load σ Unit) st = _
    rw [if_pos ht.answersNull]
    rfl
  cut _ ht hne := absurd (List.prefix_nil.mp ht) hne

/-- A check that is passed reads nothing. -/
theorem readsBack_errorIf {c : Bool} (hc : c = false) (why : String) : ReadsBack R S [] (errorIf S c why) () := by
  rw [errorIf, hc]
  exact Codes.pure ()

/-- A target and what the header of its chunks says. -/
structure Agree (target : DumpTargetInfo) (S : Format) : Prop where
  wide : target.Wide
  swap : S.swap = !target.littleEndian
  toflt : S.toflt = false

variable (hS : Agree target S)

include hS

theorem order_order (e : List UInt8) :
    (if S.swap then (maybeByteSwap target e).reverse else maybeByteSwap target e) = e := by
  rw [hS.swap, maybeByteSwap]
  cases target.littleEndian <;> simp

theorem readsBack_mem {n : Nat} (es : List (List UInt8)) (hes : ∀ e ∈ es, e.length = n) :
    ReadsBack R S (es.flatMap fun e => [.block (maybeByteSwap target e)]) (loadMem R S es.length n) es := by
  have hlen : ∀ e : List UInt8, (maybeByteSwap target e).length = e.length := fun e => by
    rw [maybeByteSwap]
    split <;> simp
  have hsize : (es.flatMap (maybeByteSwap target)).length = es.length * n := by
    rw [List.length_flatMap, List.map_congr_left fun e he => (hlen e).trans (hes e he)]
    simp
  have helements : (elements n es.length (es.flatMap (maybeByteSwap target))).map
      (fun e => if S.swap then e.reverse else e) = es := by
    clear hsize
    induction es with
    | nil => rfl
    | cons e es ih =>
      have he : (maybeByteSwap target e).length = n := (hlen e).trans (hes e List.mem_cons_self)
      rw [List.length_cons, elements, List.flatMap_cons, List.take_left' he, List.drop_left' he, List.map_cons,
        ih fun e he => hes e (List.mem_cons_of_mem _ he)]
      rw [order_order hS]
  have hblock := readsBack_block (R := R) (S := S) (es.flatMap (maybeByteSwap target))
  have hops : ∀ w, layout 4 w [.block (es.flatMap (maybeByteSwap target))] =
      layout 4 w (es.flatMap fun e => [.block (maybeByteSwap target e)]) := fun w => by
    rw [layout_block, layout_flatMap_block]
  have hall := (hblock.congr hops).map
    fun bytes => (elements n es.length bytes).map fun e => if S.swap then e.reverse else e
  rw [helements, hsize] at hall
  exact hall

theorem readsBack_var (e : List UInt8) :
    ReadsBack R S [.block (maybeByteSwap target e)] (loadVar R S e.length) e := by
  have hmem := (readsBack_mem (R := R) hS [e] (n := e.length) (by simp)).map List.flatten
  rw [List.flatten_singleton] at hmem
  exact hmem

theorem readsBack_little (w n : Nat) :
    ReadsBack R S [.block (maybeByteSwap target (little w n))] (loadVar R S w) (little w n) := by
  have hvar := readsBack_var (R := R) hS (little w n)
  rwa [length_little] at hvar

theorem readsBack_char (y : UInt8) : ReadsBack R S (dumpChar y) (loadChar R S) y := by
  have hvar := (readsBack_var (R := R) hS [y]).map fun x => UInt8.ofNat (value x)
  have hswap : maybeByteSwap target [y] = [y] := by
    rw [maybeByteSwap]
    split <;> rfl
  have hvalue : UInt8.ofNat (value [y]) = y := by simp [value]
  rw [hswap, hvalue] at hvar
  exact hvar

theorem readsBack_align : ReadsBack R S [.align] (align4 R S) () :=
  Codes.skip (by decide) (readsBack_char hS 0)

theorem readsBack_int {x : Int} (hx : IsIndex x) : ReadsBack R S (dumpInt target x) (loadInt R S) x := by
  have hsigned : signed 4 (value (little 4 (residue 4 x))) = x := by
    rw [value_little (residue_lt 4 x)]
    exact signed_residue (by have := hx.1; omega) (by have := hx.2; omega)
  rw [dumpInt_eq hS.wide (Int.le_trans (by decide) hx.1) hx.2]
  have hcheck : decide (signed 4 (value (little 4 (residue 4 x))) < 0) = false := by
    rw [hsigned]
    simpa using hx.1
  have hbind := (readsBack_little hS 4 (residue 4 x)).bind
    (q := fun y => errorIf S (signed 4 (value y) < 0) "bad integer" >>= fun _ => Pure.pure (signed 4 (value y)))
    ((readsBack_errorIf (R := R) hcheck "bad integer").bind (Codes.pure _))
  rw [hsigned] at hbind
  exact hbind

theorem readsBack_number (n : UInt64) : ReadsBack R S (dumpNumber target n) (loadNumber R H S) n := by
  have hvar := (readsBack_little (R := R) hS 8 n.toNat).map fun x => UInt64.ofNat (value x)
  have hvalue : UInt64.ofNat (value (little 8 n.toNat)) = n := by
    rw [value_little n.toNat_lt]
    simp
  rw [hvalue] at hvar
  rw [loadNumber, hS.toflt, if_neg (by decide)]
  exact hvar

theorem readsBack_string {s : Option (List UInt8)} (hs : ∀ t ∈ s, IsName t) :
    ReadsBack R S (dumpString target s) (loadString R S) s := by
  cases s with
  | none =>
    have hvalue : value (little 4 0) = 0 := value_little (by decide)
    rw [dumpString, dumpSize_eq hS.wide (by decide), ← List.append_nil [Op.block _]]
    refine (readsBack_little (R := R) hS 4 0).bind ?_
    rw [if_pos hvalue]
    exact Codes.pure none
  | some t =>
    have ht : t.length + 1 ≤ 0x7FFFFFFE := hs t rfl
    have hvalue : value (little 4 (t.length + 1)) = t.length + 1 := value_little (by omega)
    have hblock := (readsBack_block (R := R) (S := S) (t ++ [0])).map fun bytes => some (bytes.take t.length)
    rw [List.length_append, List.length_singleton, List.take_left] at hblock
    rw [dumpString, dumpSize_eq hS.wide ht]
    refine (readsBack_little (R := R) hS 4 (t.length + 1)).bind ?_
    rw [hvalue, if_neg (Nat.succ_ne_zero _)]
    exact readsBack_directMode.bind hblock

theorem readsBack_code {f : Proto} (hf : f.Fits) : ReadsBack R S (dumpCode target f) (loadCode R S) f.code := by
  have hindex : IsIndex f.code.length := ⟨by omega, by have := hf.code; omega⟩
  have hwords := (readsBack_mem (R := R) hS (f.code.map fun i => little 4 i.toNat) (n := 4) (by simp)).map
    fun es => es.map fun e => UInt32.ofNat (value e)
  have hvalue : (f.code.map fun i => little 4 i.toNat).map (fun e => UInt32.ofNat (value e)) = f.code := by
    rw [List.map_map]
    conv_rhs => rw [← List.map_id f.code]
    refine List.map_congr_left fun i _ => ?_
    show UInt32.ofNat (value (little 4 i.toNat)) = i
    rw [value_little i.toNat_lt]
    simp
  rw [hvalue, List.flatMap_map, List.length_map] at hwords
  exact (readsBack_int hS hindex).bind ((readsBack_align hS).bind (readsBack_directMode.bind hwords))

theorem readsBack_constant {o : TValue} (ho : ∀ s ∈ o.string?, IsName s) :
    ReadsBack R S (dumpConstant target o) (loadConstant R H S) o := by
  refine (readsBack_char hS (ttype o)).bind ?_
  cases o with
  | nil => exact Codes.pure _
  | boolean b =>
    have hchar := (readsBack_char (R := R) hS (if b then 1 else 0)).map fun c => TValue.boolean (c ≠ 0)
    have hb : TValue.boolean ((if b then 1 else 0 : UInt8) ≠ 0) = .boolean b := by cases b <;> rfl
    rw [hb] at hchar
    exact hchar
  | number n => exact (readsBack_number hS n).map TValue.number
  | string s => exact (readsBack_string (R := R) hS (s := some s) ho).map fun t => TValue.string (t.getD [])

theorem readsBack_locVar {v : LocVar} (hname : ∀ s ∈ v.varname, IsName s) (hstart : IsIndex v.startpc)
    (hend : IsIndex v.endpc) : ReadsBack R S (dumpLocVar target v) (loadLocVar R S) v := by
  have hlast := (readsBack_int (R := R) hS hend).map fun endpc => (⟨v.varname, v.startpc, endpc⟩ : LocVar)
  exact (readsBack_string hS hname).bind ((readsBack_int hS hstart).bind hlast)

theorem readsBack_lines {lines : List Int} (hlines : ∀ x ∈ lines, -0x7FFFFFFF ≤ x ∧ x ≤ 0x7FFFFFFE) :
    ReadsBack R S (lines.flatMap (dumpInt target)) (loadMem R S lines.length 4) (lines.map fun x => little 4 (residue 4 x)) := by
  have hmem := readsBack_mem (R := R) hS (lines.map fun x => little 4 (residue 4 x)) (n := 4) (by simp)
  have hops : ∀ x ∈ lines, dumpInt target x = [.block (maybeByteSwap target (little 4 (residue 4 x)))] :=
    fun x hx => dumpInt_eq hS.wide (hlines x hx).1 (hlines x hx).2
  rw [List.flatMap_map, List.length_map] at hmem
  rw [List.flatMap_congr hops]
  exact hmem

theorem readsBack_constants {f : Proto} (hf : f.Fits) :
    ReadsBack R S (f.k.flatMap (dumpConstant target)) (times (loadConstant R H S) f.k.length) f.k := by
  have hall := Codes.times (v := id) f.k fun o ho => readsBack_constant (R := R) (H := H) hS (hf.constant ho)
  rwa [List.map_id] at hall

theorem readsBack_locVars {f : Proto} (hf : f.Fits) :
    ReadsBack R S (f.locvars.flatMap (dumpLocVar target)) (times (loadLocVar R S) f.locvars.length) f.locvars := by
  have hall := Codes.times (v := id) f.locvars fun v hv =>
    readsBack_locVar (R := R) hS (hf.varname hv) (hf.eachLocVar v hv).1 (hf.eachLocVar v hv).2
  rwa [List.map_id] at hall

theorem readsBack_upvalues {f : Proto} (hf : f.Fits) :
    ReadsBack R S (f.upvalues.flatMap (dumpString target)) (times (loadString R S) f.upvalues.length) f.upvalues := by
  have hall := Codes.times (v := id) f.upvalues fun u hu => readsBack_string (R := R) hS (hf.upvalue hu)
  rwa [List.map_id] at hall

end Values

/-! ### Functions -/

mutual

/-- A function without its debug information, which has another source then. -/
def Proto.stripped (source : List UInt8) : Proto → Proto
  | { linedefined, lastlinedefined, nups, numparams, isVararg, maxstacksize, code, k, p, .. } =>
    ⟨some source, linedefined, lastlinedefined, nups, numparams, isVararg, maxstacksize, code, k, strippedAll source p, [], [], []⟩

def Proto.strippedAll (source : List UInt8) : List Proto → List Proto
  | [] => []
  | f :: fs => f.stripped source :: strippedAll source fs

end

theorem Proto.strippedAll_eq (source : List UInt8) (fs : List Proto) :
    Proto.strippedAll source fs = fs.map (Proto.stripped source) := by
  induction fs with
  | nil => rfl
  | cons f fs ih => rw [Proto.strippedAll, ih, List.map_cons]

/-- What is left of a function in a chunk. -/
def Proto.saved (strip : Bool) (f : Proto) : Proto := if strip then f.stripped noSource else f

theorem Proto.saved_eq (strip : Bool) (f : Proto) :
    f.saved strip = ⟨if strip then some noSource else f.source, f.linedefined, f.lastlinedefined, f.nups, f.numparams, f.isVararg,
      f.maxstacksize, f.code, f.k, f.p.map (Proto.saved strip), if strip then [] else f.lineinfo,
      if strip then [] else f.locvars, if strip then [] else f.upvalues⟩ := by
  cases strip with
  | true =>
    cases f
    exact congrArg (fun p => Proto.mk _ _ _ _ _ _ _ _ _ p [] [] []) (Proto.strippedAll_eq _ _)
  | false =>
    cases f
    exact congrArg (fun p => Proto.mk _ _ _ _ _ _ _ _ _ p _ _ _) (List.map_id _).symm

theorem Proto.Fits.saved {f : Proto} (hf : f.Fits) (strip : Bool) : (f.saved strip).Fits := by
  cases strip with
  | false => exact hf
  | true =>
    rw [Proto.saved_eq]
    refine ⟨hf.lines, hf.code, by simp, ?_, ?_, ?_, ?_⟩
    · refine ⟨hf.lengths.1, ?_, by simp, by simp⟩
      rw [List.length_map]
      exact hf.lengths.2.1
    · intro s hs
      have hmem : s = noSource ∨ s ∈ f.k.filterMap TValue.string? := by simpa [Proto.strings] using hs
      rcases hmem with rfl | hconstant
      · show noSource.length + 1 ≤ 0x7FFFFFFE
        decide
      · obtain ⟨o, ho, hos⟩ := List.mem_filterMap.mp hconstant
        exact hf.constant ho s hos
    · simp
    · simp

/-- The compiler gives every function a source. -/
def Proto.HasSource (f : Proto) : Prop := f.source.isSome

/-- The source that goes into the chunk: none if the chunk is stripped or the function around has the same. -/
def ownSource (strip : Bool) (f : Proto) (parent : Option (List UInt8)) : Option (List UInt8) :=
  if f.source = parent ∨ strip then none else f.source

theorem ownSource_name {f : Proto} (hf : f.Fits) (strip : Bool) (parent : Option (List UInt8)) :
    ∀ s ∈ ownSource strip f parent, IsName s := by
  intro s hs
  rw [ownSource] at hs
  split at hs
  · cases hs
  · exact hf.source s hs

/-- The loader completes it from the function around. -/
theorem ownSource_orElse {strip : Bool} {f : Proto} (hsource : f.HasSource) {parent loaded : Option (List UInt8)}
    (hstrip : strip = true → loaded = some noSource) (hparent : strip = false → f.source = parent → loaded = f.source) :
    (ownSource strip f parent <|> loaded) = if strip then some noSource else f.source := by
  cases strip with
  | true =>
    rw [ownSource, if_pos (.inr rfl), hstrip rfl]
    rfl
  | false =>
    obtain ⟨source, hsome⟩ := Option.isSome_iff_exists.mp hsource
    by_cases hsame : f.source = parent
    · rw [ownSource, if_pos (.inl hsame), hparent rfl hsame]
      rfl
    · rw [ownSource, if_neg (by simpa using hsame), hsome]
      rfl

/-- The lines come back from their bytes. -/
theorem signed_lines {f : Proto} (hf : f.Fits) :
    (f.lineinfo.map fun x => little 4 (residue 4 x)).map (fun e => signed 4 (value e)) = f.lineinfo := by
  rw [List.map_map]
  conv_rhs => rw [← List.map_id f.lineinfo]
  refine List.map_congr_left fun x hx => ?_
  show signed 4 (value (little 4 (residue 4 x))) = x
  obtain ⟨hlow, hhigh⟩ := hf.eachLine x hx
  rw [value_little (residue_lt 4 x)]
  exact signed_residue (by omega) (by omega)

/-- The dump of a function in the steps of the loader, with the debug information that is saved. -/
theorem dumpFunction_steps (target : DumpTargetInfo) (strip : Bool) (f : Proto) (parent : Option (List UInt8)) :
    dumpFunction target strip f parent = [] ++ (dumpString target (ownSource strip f parent) ++
      (dumpInt target f.linedefined ++ (dumpInt target f.lastlinedefined ++ (dumpChar f.nups ++ (dumpChar f.numparams ++
      (dumpChar f.isVararg ++ (dumpChar f.maxstacksize ++ (dumpCode target f ++ (dumpInt target f.k.length ++
      (f.k.flatMap (dumpConstant target) ++ (dumpInt target f.p.length ++
      (f.p.flatMap (dumpFunction target strip · f.source) ++ (dumpInt target (f.saved strip).lineinfo.length ++
      ([.align] ++ ([] ++ ((f.saved strip).lineinfo.flatMap (dumpInt target) ++
      (dumpInt target (f.saved strip).locvars.length ++ ((f.saved strip).locvars.flatMap (dumpLocVar target) ++
      (dumpInt target (f.saved strip).upvalues.length ++ ((f.saved strip).upvalues.flatMap (dumpString target) ++
      ([] ++ []))))))))))))))))))))) := by
  rw [dumpFunction_eq, f.saved_eq strip]
  simp [dumpFront, dumpDebug, ownSource]

section Functions

variable {σ : Type} {R : Reader σ} {H : Host} {S : Format} {target : DumpTargetInfo} (hS : Agree target S)

include hS

/-- A function is read back at any place of the chunk. The source that its dump left out is the one that the loader has for
the function around it. -/
theorem readsBack_function {strip : Bool} {f : Proto} (hf : f.All Proto.Fits) (hsource : f.All Proto.HasSource)
    (hcheck : (f.saved strip).All fun g => H.checkcode g) {room : Nat} (hroom : f.depth ≤ room)
    {parent loaded : Option (List UInt8)} (hstrip : strip = true → loaded = some noSource)
    (hparent : strip = false → f.source = parent → loaded = f.source) :
    ReadsBack R S (dumpFunction target strip f parent) (loadFunction R H S room loaded) (f.saved strip) := by
  induction hf generalizing room parent loaded with
  | @intro f hfits _ ih =>
    obtain ⟨hhere, hinside⟩ := hsource
    obtain ⟨room, rfl⟩ : ∃ n, room = n + 1 := ⟨room - 1, by rw [f.depth_eq] at hroom; omega⟩
    have hfrom := ownSource_orElse hhere hstrip hparent
    have hsaved := f.saved_eq strip
    have hgfits : (f.saved strip).Fits := hfits.saved strip
    have hmade : (⟨ownSource strip f parent <|> loaded, f.linedefined, f.lastlinedefined, f.nups, f.numparams, f.isVararg,
        f.maxstacksize, f.code, f.k, f.p.map (Proto.saved strip),
        ((f.saved strip).lineinfo.map fun x => little 4 (residue 4 x)).map (fun e => signed 4 (value e)),
        (f.saved strip).locvars, (f.saved strip).upvalues⟩ : Proto) = f.saved strip := by
      rw [signed_lines hgfits, hfrom, hsaved]
    obtain ⟨hcheckHere, hcheckInside⟩ := hcheck
    have hinner : ∀ g ∈ f.p, (g.saved strip).All fun g => H.checkcode g := by
      intro g hg
      apply hcheckInside
      rw [hsaved]
      exact List.mem_map_of_mem hg
    have hlen : ∀ n : Nat, n ≤ 0x7FFFFFFE → IsIndex n := fun n hn => ⟨by omega, by omega⟩
    rw [dumpFunction_steps]
    refine readsBack_directMode.bind ?_
    refine (readsBack_string hS (ownSource_name hfits strip parent)).bind ?_
    refine (readsBack_int hS hfits.lines.1).bind ?_
    refine (readsBack_int hS hfits.lines.2).bind ?_
    refine (readsBack_char hS f.nups).bind ?_
    refine (readsBack_char hS f.numparams).bind ?_
    refine (readsBack_char hS f.isVararg).bind ?_
    refine (readsBack_char hS f.maxstacksize).bind ?_
    refine (readsBack_code hS hfits).bind ?_
    refine (readsBack_int hS (hlen _ hfits.lengths.1)).bind ?_
    refine (readsBack_constants hS hfits).bind ?_
    refine (readsBack_int hS (hlen _ hfits.lengths.2.1)).bind ?_
    refine (Codes.times (v := Proto.saved strip) f.p fun g hg => ih g hg (hinside g hg) (hinner g hg) ?_ ?_ ?_).bind ?_
    · have hlt := Proto.depth_lt hg
      omega
    · intro h
      rw [hfrom, if_pos h]
    · intro h hsame
      rw [hfrom, h, hsame]
      rfl
    refine (readsBack_int hS (hlen _ (Nat.le_trans (Nat.le_of_lt hgfits.lineinfo) (by decide)))).bind ?_
    refine (readsBack_align hS).bind ?_
    refine readsBack_directMode.bind ?_
    refine (readsBack_lines hS hgfits.eachLine).bind ?_
    refine (readsBack_int hS (hlen _ hgfits.lengths.2.2.1)).bind ?_
    refine (readsBack_locVars hS hgfits).bind ?_
    refine (readsBack_int hS (hlen _ hgfits.lengths.2.2.2)).bind ?_
    refine (readsBack_upvalues hS hgfits).bind ?_
    rw [hmade]
    exact (readsBack_errorIf (by simp [hcheckHere]) "bad code").bind (Codes.pure _)

end Functions

/-! ### Chunks -/

/-- The bytes of a chunk. -/
def chunk (target : DumpTargetInfo) (strip : Bool) (f : Proto) : List UInt8 := layout 4 0 (dumpChunk target strip f)

/-- A dump into memory ends without an error, and leaves the bytes of the chunk. -/
theorem dump_gather {target : DumpTargetInfo} (hwide : target.Wide) (strip : Bool) {f : Proto} (hf : f.All Proto.Fits) :
    luaUDumpCrosscompile target strip gather [] f =
      some ⟨0, (chunk target strip f).length, chunk target strip f⟩ := by
  have hfeed := feed_gather 0 [] (blocks 4 0 (dumpChunk target strip f))
  rw [Nat.zero_add, List.nil_append] at hfeed
  rw [luaUDumpCrosscompile, exec_of_taken (by decide) (noFail_dumpChunk hwide hf) (by rw [hfeed]), hfeed]
  rfl

/-- What the header of a chunk says. -/
def formatOf (target : DumpTargetInfo) (name : String) : Format := ⟨name, !target.littleEndian, 8, false⟩

section Chunks

variable {σ : Type} {R : Reader σ} {H : Host} {target : DumpTargetInfo} (hwide : target.Wide)

include hwide

theorem agree_formatOf (name : String) : Agree target (formatOf target name) := ⟨hwide, rfl, rfl⟩

theorem readsBack_header (name : String) :
    ReadsBack R (formatOf target name) (dumpHeader target) (loadHeader R name) (formatOf target name) := by
  obtain ⟨littleEndian, sizeofInt, sizeofStrsize⟩ := target
  obtain ⟨hint, hstr⟩ := hwide
  obtain rfl : sizeofInt = 4 := hint
  obtain rfl : sizeofStrsize = 4 := hstr
  show ReadsBack R _ ([.block _] ++ ([] ++ [])) (loadHeader R name) _
  refine (readsBack_block (S := ⟨name, false, 0, false⟩) _).bind ?_
  cases littleEndian with
  | true => exact (readsBack_errorIf (S := formatOf ⟨true, 4, 4⟩ name) (by decide) "bad header").bind (Codes.pure _)
  | false => exact (readsBack_errorIf (S := formatOf ⟨false, 4, 4⟩ name) (by decide) "bad header").bind (Codes.pure _)

omit hwide

/-- The layout of a chunk: the loader counts from the end of the header on, which is as good as counting from its start. -/
theorem chunk_eq (strip : Bool) (f : Proto) :
    chunk target strip f = layout 4 0 (dumpHeader target) ++ layout 4 0 (dumpFunction target strip f none) := by
  rw [chunk, dumpChunk, layout_append]
  have hlen : (layout 4 0 (dumpHeader target)).length = 12 := by simp [dumpHeader, dumpBlock, layout_block, luaSignature]
  rw [hlen, layout, layout, layout, blocks_congr (by decide : (0 + 12) % 4 = 0 % 4)]

end Chunks

/-- What the loader asks of a function: values that fit, a source, code that passes the check once it is loaded, and functions
no deeper inside each other than the C stack allows. -/
structure Proto.Loadable (H : Host) (strip : Bool) (nCcalls : Nat) (f : Proto) : Prop where
  fits : f.All Proto.Fits
  hasSource : f.All Proto.HasSource
  check : (f.saved strip).All fun g => H.checkcode g
  depth : f.depth + nCcalls ≤ luaiMaxccalls

section Undump

variable {σ : Type} {R : Reader σ} {H : Host} {target : DumpTargetInfo} (hwide : target.Wide) {strip : Bool} {nCcalls : Nat}
  {f : Proto} (hf : f.Loadable H strip nCcalls)

include hwide hf

theorem readsBack_main (name : String) :
    ReadsBack R (formatOf target name) (dumpFunction target strip f none)
      (loadFunction R H (formatOf target name) (luaiMaxccalls - nCcalls) (some noSource)) (f.saved strip) := by
  refine readsBack_function (agree_formatOf hwide name) hf.fits hf.hasSource hf.check ?_ (fun _ => rfl) ?_
  · have hdepth := hf.depth
    omega
  · intro _ hnone
    obtain ⟨hhere, -⟩ := hf.hasSource
    rw [Proto.HasSource, hnone] at hhere
    cases hhere

omit hwide hf in
theorem luaUUndump_apply (name : String) (st : LoadState σ) :
    luaUUndump R H name nCcalls st = (loadHeader R (chunkName name) st >>= fun r =>
      loadFunction R H r.1 (luaiMaxccalls - nCcalls) (some noSource) { r.2 with total := 0 }) := rfl

omit hwide hf in
theorem layout_dumpHeader (w : Nat) : layout 4 w (dumpHeader target) = layout 4 0 (dumpHeader target) := by
  rw [dumpHeader, dumpBlock, layout_block, layout_block]

/-- The loader takes a whole chunk for the function it was made from, and leaves what is behind it. -/
theorem luaUUndump_chunk (name : String) {z : Zio σ} {rest : List UInt8} (hz : z.Holds R (chunk target strip f ++ rest))
    (total : Nat) :
    ∃ st, luaUUndump R H name nCcalls ⟨z, total⟩ = .ok (f.saved strip, st) ∧ st.z.Holds R rest := by
  rw [chunk_eq, List.append_assoc] at hz
  obtain ⟨⟨z₁, total₁⟩, hload, hz₁, -⟩ := (readsBack_header (R := R) hwide (chunkName name)).whole (x := ⟨z, total⟩)
    (s := layout 4 0 (dumpFunction target strip f none) ++ rest) (by
      show z.Holds R (layout 4 total _ ++ _)
      rwa [layout_dumpHeader])
  obtain ⟨st, hfunction, hrest, -⟩ := (readsBack_main hwide hf (chunkName name)).whole (x := ⟨z₁, 0⟩) hz₁
  refine ⟨st, ?_, hrest⟩
  rw [luaUUndump_apply, hload]
  exact hfunction

/-- A chunk that was cut off is refused. -/
theorem luaUUndump_cut (name : String) {z : Zio σ} {t : List UInt8} (hz : z.Holds R t) (ht : t <+: chunk target strip f)
    (hne : t ≠ chunk target strip f) (total : Nat) :
    luaUUndump R H name nCcalls ⟨z, total⟩ = .error (message (chunkName name) "unexpected end") := by
  rw [chunk_eq] at ht hne
  rw [luaUUndump_apply]
  rcases Nat.lt_or_ge t.length (layout 4 0 (dumpHeader target)).length with hshort | hlong
  · have hfirst : t <+: layout 4 0 (dumpHeader target) :=
      List.prefix_of_prefix_length_le ht (List.prefix_append _ _) (Nat.le_of_lt hshort)
    have hcut := (readsBack_header (R := R) hwide (chunkName name)).cut (x := ⟨z, total⟩) hz
      (by
        show t <+: layout 4 total _
        rwa [layout_dumpHeader])
      (by
        show t ≠ layout 4 total _
        intro heq
        rw [heq, layout_dumpHeader] at hshort
        exact Nat.lt_irrefl _ hshort)
    rw [hcut]
    rfl
  · obtain ⟨t', rfl⟩ := List.prefix_of_prefix_length_le (List.prefix_append _ _) ht hlong
    obtain ⟨⟨z₁, total₁⟩, hload, hz₁, -⟩ := (readsBack_header (R := R) hwide (chunkName name)).whole (x := ⟨z, total⟩)
      (s := t') (by
        show z.Holds R (layout 4 total _ ++ _)
        rwa [layout_dumpHeader])
    rw [hload]
    exact (readsBack_main hwide hf (chunkName name)).cut (x := ⟨z₁, 0⟩) hz₁ ((List.prefix_append_right_inj _).mp ht)
      (fun heq => hne (congrArg _ heq))

/-- What was dumped into memory loads back through any reader, with its debug information or, from a stripped chunk,
without. -/
theorem undump_dump (name : String) {data : σ} (hdata : Delivers R data (chunk target strip f)) (total : Nat) :
    luaUDumpCrosscompile target strip gather [] f = some ⟨0, (chunk target strip f).length, chunk target strip f⟩ ∧
      (luaUUndump R H name nCcalls ⟨⟨[], data⟩, total⟩).map Prod.fst = .ok (f.saved strip) := by
  refine ⟨dump_gather hwide strip hf.fits, ?_⟩
  have hz : Zio.Holds R ⟨[], data⟩ (chunk target strip f ++ []) := ⟨_, by simp, hdata⟩
  obtain ⟨st, hrun, -⟩ := luaUUndump_chunk hwide hf name hz total
  rw [hrun]
  rfl

/-- A chunk that was cut off anywhere is refused for want of its end, through any reader. -/
theorem undump_cut (name : String) {t : List UInt8} (ht : t <+: chunk target strip f) (hne : t ≠ chunk target strip f)
    {data : σ} (hdata : Delivers R data t) (total : Nat) :
    luaUUndump R H name nCcalls ⟨⟨[], data⟩, total⟩ = .error (message (chunkName name) "unexpected end") := by
  have hz : Zio.Holds R ⟨[], data⟩ t := ⟨t, rfl, hdata⟩
  exact luaUUndump_cut hwide hf name hz ht hne total

end Undump

/-! ### A function inside a function -/

theorem native_wide : DumpTargetInfo.native.Wide := ⟨rfl, rfl⟩

theorem chunk_native (strip : Bool) (f : Proto) :
    chunk .native strip f = luaUHeader ++ layout 4 0 (dumpFunction .native strip f none) := by
  rw [chunk_eq, dumpHeader, dumpBlock, layout_block]
  rfl

theorem delivers_pieces {pieces : List (List UInt8)} (hpieces : ∀ piece ∈ pieces, piece ≠ []) :
    Delivers genericReader pieces pieces.flatten := by
  induction pieces with
  | nil => exact .done rfl (.inl rfl)
  | cons piece pieces ih =>
    cases piece with
    | nil => exact absurd rfl (hpieces [] List.mem_cons_self)
    | cons c cs => exact .more rfl rfl (ih fun piece hpiece => hpieces piece (List.mem_cons_of_mem _ hpiece))

theorem delivers_piece {piece : List UInt8} (hpiece : piece ≠ []) : Delivers genericReader [piece] piece := by
  have hpieces : Delivers genericReader [piece] [piece].flatten := delivers_pieces (by simpa using hpiece)
  rwa [List.flatten_singleton] at hpieces

def returnCode : UInt32 := 0x0080001E

/-- The body of `a = function() end`. -/
def emptyBody : Proto :=
  ⟨some [0x40, 0x61], 1, 1, 0, 0, 0, 2, [returnCode], [], [], [1], [], []⟩

/-- The chunk `a = function() end`: a closure, its global variable, and a return. -/
def closureChunk : Proto :=
  ⟨some [0x40, 0x61], 0, 0, 0, 0, 2, 2, [0x24, 0x07, returnCode], [.string [0x61]], [emptyBody], [1, 1, 1], [], []⟩

/-- An interpreter whose check asks for a return at the end. -/
def endsInReturn : Host := ⟨fun f => f.code.getLast? == some returnCode, fun x => UInt64.ofNat x.toNat, 0⟩

theorem Proto.all_of_one {P : Proto → Prop} {f g : Proto} (hf : f.p = [g]) (hg : g.p = []) (hhere : P f) (hinside : P g) :
    f.All P := by
  refine ⟨hhere, fun h hh => ?_⟩
  rw [hf, List.mem_singleton] at hh
  subst hh
  exact ⟨hinside, fun k hk => by simp [hg] at hk⟩

theorem emptyBody_fits : emptyBody.Fits where
  lines := ⟨⟨by decide, by decide⟩, by decide, by decide⟩
  code := by decide
  lineinfo := by decide
  lengths := ⟨by decide, by decide, by decide, by decide⟩
  strings := by simp [Proto.strings, emptyBody, IsName]
  eachLine := by simp [emptyBody]
  eachLocVar := by simp [emptyBody]

theorem closureChunk_fits : closureChunk.Fits where
  lines := ⟨⟨by decide, by decide⟩, by decide, by decide⟩
  code := by decide
  lineinfo := by decide
  lengths := ⟨by decide, by decide, by decide, by decide⟩
  strings := by simp [Proto.strings, closureChunk, TValue.string?, IsName]
  eachLine := by simp [closureChunk]
  eachLocVar := by simp [closureChunk]

theorem closureChunk_loadable (strip : Bool) : closureChunk.Loadable endsInReturn strip 0 where
  fits := Proto.all_of_one rfl rfl closureChunk_fits emptyBody_fits
  hasSource := Proto.all_of_one rfl rfl rfl rfl
  check := by
    have hone : (closureChunk.saved strip).p = [emptyBody.saved strip] := by cases strip <;> rfl
    have hnone : (emptyBody.saved strip).p = [] := by cases strip <;> rfl
    refine Proto.all_of_one hone hnone ?_ ?_
    · cases strip <;> decide
    · cases strip <;> decide
  depth := by decide

theorem undump_dump_closure :
    luaUDumpCrosscompile .native true gather [] closureChunk =
        some ⟨0, (chunk .native true closureChunk).length, chunk .native true closureChunk⟩ ∧
      (luaUUndump genericReader endsInReturn "=a" 0 ⟨⟨[], [chunk .native true closureChunk]⟩, 0⟩).map Prod.fst =
        .ok (closureChunk.saved true) :=
  undump_dump native_wide (closureChunk_loadable true) "=a"
    (delivers_piece (by rw [chunk_native]; exact List.cons_ne_nil _ _)) 0

theorem undump_cut_closure :
    luaUUndump genericReader endsInReturn "=a" 0 ⟨⟨[], [luaSignature]⟩, 0⟩ =
      .error (message (chunkName "=a") "unexpected end") := by
  have hstart : luaSignature <+: chunk .native true closureChunk := by
    rw [chunk_native]
    exact ⟨[0x51, 0, 1, 4, 4, 4, 8, 0] ++ layout 4 0 (dumpFunction .native true closureChunk none), rfl⟩
  have hne : luaSignature ≠ chunk .native true closureChunk := by
    intro heq
    have hlength := congrArg List.length heq
    rw [chunk_native, List.length_append] at hlength
    exact absurd hlength (Nat.ne_of_lt (Nat.lt_of_lt_of_le (by decide) (Nat.le_add_right _ _)))
  exact undump_cut native_wide (closureChunk_loadable true) "=a" hstart hne (delivers_piece (List.cons_ne_nil _ _)) 0

end EspClock.Bytecode
