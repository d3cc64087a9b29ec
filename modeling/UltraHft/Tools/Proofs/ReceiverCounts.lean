import UltraHft.Tools.Proofs.Framing
import UltraHft.Tools.ReceiverMain

/-!
# What the receiver counts

No datagram makes the receiver fail, and whatever it prints is the true number of
datagrams and messages up to then, the messages divided by their types.
-/

namespace UltraHft.Tools.UdpReceiver

open UltraHft.Lib

variable {msg data : List UInt8} {msgs datagrams : List (List UInt8)} {r : Receiver}
  {key : List Char} {types : List (List Char)} {packets begun : Nat} {start now : Binary64}

/-! ## What should be counted -/

/-- The messages of a datagram: as many frames as it announces, up to the first that is
broken. -/
def messagesIn (data : List UInt8) : List (List UInt8) :=
  if data.length < 20 then []
  else Framing.frames 2 (Bytes.ofBE ((data.drop 18).take 2)) (data.drop 20)

/-- The type of a message, as `parse_itch_message` decodes it. -/
def rawTypeOf (msg : List UInt8) : List Char := decode (msg.take 1)

def typesIn (datagrams : List (List UInt8)) : List (List Char) :=
  (datagrams.flatMap messagesIn).map rawTypeOf

/-- A report is true of these datagrams and of messages of these types: each type that
came is there once, under its name, with the number of its messages.  Of `begun` messages
the type is not counted yet. -/
structure Exact (report : Report) (packets : Nat) (types : List (List Char)) (begun : Nat) :
    Prop where
  packets : report.packets = packets
  messages : report.messages = types.length + begun
  byType : ∃ counts, Tally.Counts counts types ∧
    report.byType = counts.map fun e => (nameOf e.1, e.2)
  distinct : (report.byType.map Prod.fst).Nodup

theorem typesIn_concat (datagrams : List (List UInt8)) (data : List UInt8) :
    typesIn (datagrams ++ [data]) = typesIn datagrams ++ (messagesIn data).map rawTypeOf := by
  rw [typesIn, List.flatMap_append, List.flatMap_singleton, List.map_append]
  rfl

/-! ## Parsing never fails -/

theorem parseMoldudp64_messagesIn (data : List UInt8) :
    parseMoldudp64 data = some (messagesIn data) := by
  unfold messagesIn
  split_ifs with hshort
  · exact parseMoldudp64_short hshort
  · exact parseMoldudp64_eq (by omega)

theorem ne_nil_of_mem_messagesIn (h : msg ∈ messagesIn data) : msg ≠ [] := by
  unfold messagesIn at h
  split_ifs at h
  · cases h
  · exact List.length_pos_iff.mp (Framing.fits_of_mem_frames h).1

theorem readOrder_rawType (info : Info) (h : 26 ≤ msg.length) :
    ∃ info', readOrder info msg = some info' ∧ info'.rawType = info.rawType := by
  simp only [readOrder, readBe32, if_neg (show ¬ msg.length < 10 + 4 by omega),
    if_neg (show ¬ msg.length < 22 + 4 by omega), Option.bind_eq_bind, Option.bind_some]
  exact ⟨_, rfl, rfl⟩

theorem parseItchMessage_returns (h : msg ≠ []) :
    ∃ info, parseItchMessage msg = some info ∧ info.rawType = some (rawTypeOf msg) := by
  cases msg with
  | nil => exact absurd rfl h
  | cons msgType rest =>
      unfold parseItchMessage
      dsimp only
      split_ifs with hadd htrade hcancel
      · exact readOrder_rawType _ (by omega)
      · exact readOrder_rawType _ (by omega)
      · simp only [readBe32, if_neg (show ¬ (msgType :: rest).length < 19 + 4 by omega),
          Option.bind_eq_bind, Option.bind_some]
        exact ⟨_, rfl, rfl⟩
      · exact ⟨_, rfl, rfl⟩

/-! ## Counting -/

structure Counted (r : Receiver) (packets : Nat) (types : List (List Char)) (begun : Nat) :
    Prop where
  packets : r.packets = packets
  messages : r.messages = types.length + begun
  counters : Tally.Counts r.counters types

theorem Counted.message (h : Counted r packets types 0) (hmsg : msg ≠ []) :
    ∃ r', r.countMessage msg = some r' ∧ r'.lastReport = r.lastReport ∧
      Counted r' packets (types ++ [rawTypeOf msg]) 0 := by
  obtain ⟨info, hinfo, hraw⟩ := parseItchMessage_returns hmsg
  simp only [Receiver.countMessage, hinfo, hraw, Option.bind_eq_bind, Option.bind_some,
    Option.getD_some]
  refine ⟨_, rfl, rfl, h.packets, ?_, h.counters.bump _⟩
  rw [List.length_append, h.messages]
  rfl

theorem Counted.foldlM (h : Counted r packets types 0) (hmsgs : ∀ msg ∈ msgs, msg ≠ []) :
    ∃ r', msgs.foldlM Receiver.countMessage r = some r' ∧ r'.lastReport = r.lastReport ∧
      Counted r' packets (types ++ msgs.map rawTypeOf) 0 := by
  induction msgs generalizing r types with
  | nil => exact ⟨r, rfl, rfl, by rwa [List.map_nil, List.append_nil]⟩
  | cons msg msgs ih =>
      obtain ⟨hfirst, hrest⟩ := List.forall_mem_cons.mp hmsgs
      obtain ⟨r₁, hr₁, hlast₁, h₁⟩ := h.message hfirst
      obtain ⟨r₂, hr₂, hlast₂, h₂⟩ := ih h₁ hrest
      refine ⟨r₂, ?_, hlast₂.trans hlast₁, ?_⟩
      · rw [List.foldlM_cons, hr₁]
        exact hr₂
      · rwa [List.append_assoc] at h₂

theorem Counted.packet (h : Counted r packets types 0) :
    Counted { r with packets := r.packets + 1 } (packets + 1) types 0 :=
  ⟨congrArg (· + 1) h.packets, h.messages, h.counters⟩

theorem Counted.receive (h : Counted r datagrams.length (typesIn datagrams) 0)
    (start : Binary64) (data : List UInt8) (now : Binary64) :
    ∃ r', Counted r' (datagrams ++ [data]).length (typesIn (datagrams ++ [data])) 0 ∧
      ((1.0 ≤ now - r.lastReport ∧ r'.lastReport = now ∧
          r.receive start data now = some (r', [r'.report start now])) ∨
        (¬ 1.0 ≤ now - r.lastReport ∧ r'.lastReport = r.lastReport ∧
          r.receive start data now = some (r', []))) := by
  have hmsgs : ∀ msg ∈ messagesIn data, msg ≠ [] := fun _ => ne_nil_of_mem_messagesIn
  obtain ⟨r', hfold, hlast, hcounted⟩ := h.packet.foldlM hmsgs
  change r'.lastReport = r.lastReport at hlast
  have hlength : datagrams.length + 1 = (datagrams ++ [data]).length := by
    rw [List.length_append, List.length_singleton]
  rw [← typesIn_concat, hlength] at hcounted
  have hreceive : r.receive start data now = if 1.0 ≤ now - r'.lastReport then
      some ({ r' with lastReport := now }, [r'.report start now]) else some (r', []) := by
    unfold Receiver.receive
    rw [parseMoldudp64_messagesIn]
    dsimp only [Option.bind_eq_bind, Option.bind_some]
    rw [hfold, Option.bind_some]
  rw [hlast] at hreceive
  by_cases hreport : 1.0 ≤ now - r.lastReport
  · rw [if_pos hreport] at hreceive
    exact ⟨{ r' with lastReport := now }, ⟨hcounted.packets, hcounted.messages,
      hcounted.counters⟩, .inl ⟨hreport, rfl, hreceive⟩⟩
  · rw [if_neg hreport] at hreceive
    exact ⟨r', hcounted, .inr ⟨hreport, hlast, hreceive⟩⟩

theorem length_decode_singleton (b : UInt8) : (decode [b]).length = 1 := by
  unfold decode
  rw [decodeFrom, decodeByte, decodeLead]
  split_ifs <;> rfl

theorem length_rawTypeOf (h : msg ≠ []) : (rawTypeOf msg).length = 1 := by
  cases msg with
  | nil => exact absurd rfl h
  | cons b rest => exact length_decode_singleton b

theorem length_of_mem_types (hmsgs : ∀ msg ∈ msgs, msg ≠ []) (h : key ∈ msgs.map rawTypeOf) :
    key.length = 1 := by
  obtain ⟨msg, hmsg, rfl⟩ := List.mem_map.mp h
  exact length_rawTypeOf (hmsgs msg hmsg)

theorem length_of_mem_typesIn (h : key ∈ typesIn datagrams) : key.length = 1 := by
  apply length_of_mem_types _ h
  intro msg hmsg
  obtain ⟨data, -, hdata⟩ := List.mem_flatMap.mp hmsg
  exact ne_nil_of_mem_messagesIn hdata

theorem msgTypes_names : (msgTypes.map fun entry => entry.2.toList).Nodup := by decide

theorem one_lt_length_name : ∀ entry ∈ msgTypes, 1 < entry.2.toList.length := by decide

theorem nameOf_cases (key : List Char) :
    (∃ entry ∈ msgTypes, key = [entry.1] ∧ nameOf key = entry.2.toList) ∨ nameOf key = key := by
  unfold nameOf
  cases hfind : msgTypes.find? fun entry => [entry.1] = key with
  | none => exact .inr rfl
  | some entry =>
      have hkey := List.find?_some hfind
      exact .inl ⟨entry, List.mem_of_find?_eq_some hfind, (of_decide_eq_true hkey).symm, rfl⟩

/-- Two keys of one character never share a name. -/
theorem nameOf_injOn {key' : List Char} (hkey : key.length = 1) (hkey' : key'.length = 1)
    (h : nameOf key = nameOf key') : key = key' := by
  rcases nameOf_cases key with ⟨entry, hmem, rfl, hname⟩ | hname
  · rcases nameOf_cases key' with ⟨entry', hmem', rfl, hname'⟩ | hname'
    · rw [hname, hname'] at h
      rw [List.inj_on_of_nodup_map msgTypes_names hmem hmem' h]
    · have hlong := one_lt_length_name entry hmem
      rw [← hname, h, hname', hkey'] at hlong
      omega
  · rcases nameOf_cases key' with ⟨entry', hmem', rfl, hname'⟩ | hname'
    · have hlong := one_lt_length_name entry' hmem'
      rw [← hname', ← h, hname, hkey] at hlong
      omega
    · rw [← hname, h, hname']

theorem nodup_names {counts : List (List Char × Nat)} (htypes : ∀ key ∈ types, key.length = 1)
    (h : Tally.Counts counts types) :
    ((counts.map fun e => (nameOf e.1, e.2)).map Prod.fst).Nodup := by
  have hnames : (counts.map fun e => (nameOf e.1, e.2)).map Prod.fst =
      (counts.map Prod.fst).map nameOf := by
    rw [List.map_map, List.map_map]
    rfl
  rw [hnames]
  apply List.Nodup.map_on _ h.distinct
  intro k hk k' hk' heq
  exact nameOf_injOn (htypes k (h.mem_keys.mp hk)) (htypes k' (h.mem_keys.mp hk')) heq

theorem foldl_assign {names : List (List Char × Nat)} (acc : List (List Char × Nat))
    (h : ((acc ++ names).map Prod.fst).Nodup) : names.foldl assign acc = acc ++ names := by
  induction names generalizing acc with
  | nil => rw [List.foldl_nil, List.append_nil]
  | cons e names ih =>
      rw [List.append_cons] at h
      have hnew : e.1 ∉ acc.map Prod.fst := by
        rw [List.map_append, List.map_append] at h
        have hacc := (List.nodup_append.mp h).1
        intro hmem
        exact (List.nodup_append.mp hacc).2.2 e.1 hmem e.1 (List.mem_singleton.mpr rfl) rfl
      have hassign : assign acc e = acc ++ [e] := if_neg hnew
      rw [List.foldl_cons, hassign, ih _ h, ← List.append_cons]

/-! ## Reports -/

section Reports

variable (htypes : ∀ key ∈ types, key.length = 1)
include htypes

/-- Of no time at all there is no rate. -/
theorem Counted.summary (h : Counted r packets types begun) (start now : Binary64) :
    (now - start = 0 ∧ r.summary start now = none) ∨ ∃ report,
      r.summary start now = some report ∧ Exact report packets types begun := by
  by_cases hzero : now - start = 0
  · exact .inl ⟨hzero, if_pos hzero⟩
  · have hnames := nodup_names htypes h.counters
    refine .inr ⟨_, if_neg hzero, h.packets, h.messages, ⟨r.counters, h.counters, ?_⟩, ?_⟩
    · exact foldl_assign [] hnames
    · dsimp only
      rw [foldl_assign [] hnames]
      exact hnames

theorem Counted.report (h : Counted r packets types begun) (start now : Binary64) :
    Exact (r.report start now) packets types begun := by
  have hcounts := h.counters.perm (List.mergeSort_perm r.counters itemLe)
  exact ⟨h.packets, h.messages, ⟨_, hcounts, rfl⟩, nodup_names htypes hcounts⟩

end Reports

/-! ## Runs -/

def datagramsOf (receptions : List Reception) : List (List UInt8) :=
  receptions.filterMap fun
    | .datagram data _ => some data
    | .timeout => none

def lastLine (start : Binary64) (reports : List Report) : Binary64 :=
  (reports.map Report.time).getLast?.getD start

/-- The report is true of these datagrams, received as a whole. -/
def ExactOf (report : Report) (datagrams : List (List UInt8)) : Prop :=
  Exact report datagrams.length (typesIn datagrams) 0

structure Reported (start : Binary64) (receptions : List Reception)
    (s : Receiver × List Report) : Prop where
  counted : Counted s.1 (datagramsOf receptions).length (typesIn (datagramsOf receptions)) 0
  last : s.1.lastReport = lastLine start s.2
  exact : ∀ report ∈ s.2, ∃ before data,
    before ++ [.datagram data report.time] <+: receptions ∧
      ExactOf report (datagramsOf before ++ [data])
  apart : (start :: s.2.map Report.time).IsChain fun t t' => 1.0 ≤ t' - t
  recent : ∀ before data now, receptions = before ++ [.datagram data now] →
    ¬ 1.0 ≤ now - lastLine start s.2

theorem datagramsOf_concat_datagram (receptions : List Reception) (data : List UInt8)
    (now : Binary64) :
    datagramsOf (receptions ++ [.datagram data now]) = datagramsOf receptions ++ [data] := by
  rw [datagramsOf, List.filterMap_append]
  rfl

theorem datagramsOf_concat_timeout (receptions : List Reception) :
    datagramsOf (receptions ++ [.timeout]) = datagramsOf receptions := by
  rw [datagramsOf, List.filterMap_append]
  exact List.append_nil _

theorem lastLine_concat (start : Binary64) (reports : List Report) (report : Report) :
    lastLine start (reports ++ [report]) = report.time := by
  rw [lastLine, List.map_append, List.map_singleton, List.getLast?_concat, Option.getD_some]

theorem not_one_le_sub_self (t : Binary64) : ¬ 1.0 ≤ t - t := by
  have hone : (1.0 : Binary64).val = 1 := by decide +kernel
  have hzero : (t - t).val = 0 := by
    change nearest (t.val - t.val) = 0
    rw [sub_self, nearest_zero]
  change ¬ (1.0 : Binary64).val ≤ (t - t).val
  rw [hone, hzero]
  norm_num

namespace Reported

variable {receptions : List Reception} {s : Receiver × List Report}

theorem new (start : Binary64) : Reported start [] (Receiver.new start, []) where
  counted := ⟨rfl, rfl, Tally.counts_nil⟩
  last := rfl
  exact := fun _ hreport => by cases hreport
  apart := List.isChain_singleton start
  recent := fun before data now heq => by simp at heq

theorem exact_concat (h : Reported start receptions s) (reception : Reception) :
    ∀ report ∈ s.2, ∃ before data,
      before ++ [.datagram data report.time] <+: receptions ++ [reception] ∧
        ExactOf report (datagramsOf before ++ [data]) := by
  intro report hreport
  obtain ⟨before, data, hpre, hexact⟩ := h.exact report hreport
  exact ⟨before, data, hpre.trans (List.prefix_append _ _), hexact⟩

theorem apart_concat (h : Reported start receptions s) {report : Report}
    (hdue : 1.0 ≤ report.time - lastLine start s.2) :
    (start :: (s.2 ++ [report]).map Report.time).IsChain fun t t' => 1.0 ≤ t' - t := by
  rw [List.map_append, List.map_singleton, ← List.cons_append]
  apply List.IsChain.append h.apart (List.isChain_singleton _)
  intro t ht t' ht'
  obtain rfl : report.time = t' := by simpa using ht'
  rw [List.getLast?_cons, Option.mem_some_iff] at ht
  rwa [← ht]

theorem timeout (h : Reported start receptions s) :
    Reported start (receptions ++ [.timeout]) s where
  counted := by
    rw [datagramsOf_concat_timeout]
    exact h.counted
  last := h.last
  exact := h.exact_concat .timeout
  apart := h.apart
  recent := by
    intro before data now heq
    cases (List.append_inj' heq rfl).2

theorem step (h : Reported start receptions s) (reception : Reception) :
    ∃ s', reception.step start s = some s' ∧
      Reported start (receptions ++ [reception]) s' := by
  cases reception with
  | timeout => exact ⟨s, rfl, h.timeout⟩
  | datagram data now =>
      obtain ⟨r', hcounted, hreceive⟩ := h.counted.receive start data now
      rw [← datagramsOf_concat_datagram _ _ now] at hcounted
      have hnow : ∀ {before data' now'},
          receptions ++ [.datagram data now] = before ++ [.datagram data' now'] → now' = now := by
        intro before data' now' heq
        cases (List.append_inj' heq rfl).2
        rfl
      rcases hreceive with ⟨hdue, hlast, hreceive⟩ | ⟨hrecent, hlast, hreceive⟩
      · refine ⟨(r', s.2 ++ [r'.report start now]), ?_, hcounted, ?_, ?_, ?_, ?_⟩
        · rw [Reception.step, hreceive]
          rfl
        · rw [lastLine_concat]
          exact hlast
        · intro report hreport
          rcases List.mem_append.mp hreport with hold | hnew
          · exact h.exact_concat _ report hold
          · obtain rfl := List.mem_singleton.mp hnew
            refine ⟨receptions, data, List.prefix_rfl, ?_⟩
            rw [← datagramsOf_concat_datagram _ _ now]
            exact hcounted.report (fun _ => length_of_mem_typesIn) start now
        · apply h.apart_concat
          rw [← h.last]
          exact hdue
        · intro before data' now' heq
          rw [hnow heq, lastLine_concat]
          exact not_one_le_sub_self now
      · refine ⟨(r', s.2), ?_, hcounted, hlast.trans h.last, h.exact_concat _, h.apart, ?_⟩
        · rw [Reception.step, hreceive, Option.map_some, List.append_nil]
        · intro before data' now' heq
          rw [hnow heq, ← h.last]
          exact hrecent

theorem run (start : Binary64) (receptions : List Reception) :
    ∃ s, receiveAll start receptions = some s ∧ Reported start receptions s :=
  Runs.exec_total (Reported start) (.new start) fun _ i _ _ _ h => h.step i

theorem summary (h : Reported start receptions s) (now : Binary64) :
    (now - start = 0 ∧ s.1.summary start now = none) ∨ ∃ report,
      s.1.summary start now = some report ∧ ExactOf report (datagramsOf receptions) :=
  h.counted.summary (fun _ => length_of_mem_typesIn) start now

end Reported

end UltraHft.Tools.UdpReceiver
