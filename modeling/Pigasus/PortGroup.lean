import Pigasus.Pipeline
import Pigasus.RulePacker
import Pigasus.Struct

/-!
# The port group filter

`port_group` drops the rules whose port groups do not match the ports of the
packet. `rule_unit` reads the port groups of a rule, four `port_unit`s check one
group each. All tables are read with two cycles of latency; every register is
named after the cycle that the source assigns it in.
-/

namespace Pigasus

open Hdl

/-- `RULE_AWIDTH` bits. -/
abbrev RuleId := BitVec 13

/-- `PG_AWIDTH` bits. -/
abbrev PgId := BitVec 9

structure PgEntry where
  tcp : Bool
  src : Bool
  any : Bool
  range : Bool
  list : Bool
  single : Bool
  tableIndex : BitVec 5

structure PgRange where
  list : Bool
  listIndex : BitVec 5
  rangeStart : Vec (BitVec 16) 3
  rangeEnd : Vec (BitVec 16) 3

/-- `value0` .. `value6`. -/
abbrev PgList := Vec (BitVec 16) 7

structure PgTables where
  rule2pg : RuleId → Vec PgId 4
  pgEntry : PgId → PgEntry
  single : PgId → BitVec 16
  range : BitVec 5 → PgRange
  list : BitVec 5 → PgList
  httpSrc : BitVec 11 → BitVec 32
  httpDst : BitVec 11 → BitVec 32

/-- `tcp`, `src_port` and `dst_port` of a packet. -/
structure Ports where
  tcp : Bool
  srcPort : BitVec 16
  dstPort : BitVec 16

/-! ## One port group -/

structure PuIn where
  inPg : PgId
  inPgValid : Bool
  ports : Ports

/-- `rd_pg` and `pg_r1`, and the registers they move to. -/
structure PgRead where
  rd : Bool
  pg : PgId

/-- What is read for the group: `any`, `single_rd` .. `check_port`. -/
structure PgParse where
  any : Bool
  singleRd : Bool
  rangeRd : Bool
  listRd : Bool
  listIndex : BitVec 5
  httpSrcRd : Bool
  httpDstRd : Bool
  checkPort : BitVec 16

/-- What is known when the list is read: `any_r3`, `single_match` .. `list_rd_r3`. -/
structure PgMatch where
  any : Bool
  singleMatch : Bool
  rangeMatch : Bool
  httpSrcMatch : Bool
  httpDstMatch : Bool
  checkPort : BitVec 16
  listRd : Bool

/-- `any_r6`, `single_match_r3` .. `list_match`. -/
structure PgDone where
  any : Bool
  singleMatch : Bool
  rangeMatch : Bool
  httpSrcMatch : Bool
  httpDstMatch : Bool
  listMatch : Bool

structure PortUnit where
  c1 : PgRead
  c2 : PgRead
  c3 : PgRead
  c4 : PgRead
  pgEntry : RdPort PgEntry
  pgEntryDataR1 : PgEntry
  /-- `hp_tcp`, `hp_src_port` and `hp_dst_port`. -/
  hpPorts : Vec Ports 4
  c5 : PgParse
  pgR5 : PgId
  rangeAddr : BitVec 5
  httpSrcAddr : BitVec 11
  httpDstAddr : BitVec 11
  c6 : PgParse
  c7 : PgParse
  single : RdPort (BitVec 16)
  range : RdPort PgRange
  httpSrc : RdPort (BitVec 32)
  httpDst : RdPort (BitVec 32)
  c8 : PgMatch
  listIndexR3 : BitVec 5
  list : RdPort PgList
  c9 : PgMatch
  c10 : PgMatch
  c11 : PgDone
  portMatch : Bool

namespace PortUnit

/-- The group is looked at: it is valid and for the protocol of the packet. -/
def parses (valid : Bool) (p : Ports) (e : PgEntry) : Bool := valid && p.tcp == e.tcp

/-- CYCLE 5. -/
def parse (valid : Bool) (p : Ports) (e : PgEntry) : PgParse :=
  let on := parses valid p e
  { any := on && e.any
    singleRd := on && !e.any && e.single
    -- range has higher priority than list
    rangeRd := on && !e.any && !e.single && e.range
    listRd := on && !e.any && !e.single && !e.range && e.list
    listIndex := if on && !e.any && !e.single && !e.range && e.list then e.tableIndex else 0
    httpSrcRd := on && !e.any && !e.single && !e.range && !e.list && e.src
    httpDstRd := on && !e.any && !e.single && !e.range && !e.list && !e.src
    checkPort := if on then if e.src then p.srcPort else p.dstPort else 0 }

def inRange (r : PgRange) (port : BitVec 16) : Bool :=
  (List.finRange 3).any fun k => decide (r.rangeStart k ≤ port) && decide (port ≤ r.rangeEnd k)

def inList (l : PgList) (port : BitVec 16) : Bool := (List.finRange 7).any fun k => port == l k

/-- Bit `check_port[4:0]` of a word of the HTTP table. -/
def httpBit (w : BitVec 32) (port : BitVec 16) : Bool := (w >>> (port.extractLsb' 0 5)) &&& 1 != 0

/-- CYCLE 8. -/
def check (p : PgParse) (single : BitVec 16) (range : PgRange) (httpSrc httpDst : BitVec 32) : PgMatch where
  any := p.any
  singleMatch := p.singleRd && single == p.checkPort
  rangeMatch := p.rangeRd && inRange range p.checkPort
  httpSrcMatch := p.httpSrcRd && httpBit httpSrc p.checkPort
  httpDstMatch := p.httpDstRd && httpBit httpDst p.checkPort
  checkPort := p.checkPort
  -- the list is checked even if there is no range match
  listRd := if p.rangeRd && range.list then true else p.listRd

variable (T : PgTables) (s : PortUnit) (i : PuIn)

def step : PortUnit where
  c1 := ⟨i.inPgValid, i.inPg⟩
  c2 := s.c1
  c3 := s.c2
  c4 := s.c3
  pgEntry := s.pgEntry.read (T.pgEntry s.c1.pg)
  pgEntryDataR1 := s.pgEntry.q
  hpPorts := shiftIn i.ports s.hpPorts
  c5 := parse s.c4.rd (s.hpPorts 3) s.pgEntryDataR1
  pgR5 := s.c4.pg
  rangeAddr := if (parse s.c4.rd (s.hpPorts 3) s.pgEntryDataR1).rangeRd then s.pgEntryDataR1.tableIndex else 0
  httpSrcAddr :=
    if (parse s.c4.rd (s.hpPorts 3) s.pgEntryDataR1).httpSrcRd then ((s.hpPorts 3).srcPort >>> 5).setWidth 11 else 0
  httpDstAddr :=
    if (parse s.c4.rd (s.hpPorts 3) s.pgEntryDataR1).httpDstRd then ((s.hpPorts 3).dstPort >>> 5).setWidth 11 else 0
  c6 := s.c5
  c7 := s.c6
  single := s.single.read (T.single s.pgR5)
  range := s.range.read (T.range s.rangeAddr)
  httpSrc := s.httpSrc.read (T.httpSrc s.httpSrcAddr)
  httpDst := s.httpDst.read (T.httpDst s.httpDstAddr)
  c8 := check s.c7 s.single.q s.range.q s.httpSrc.q s.httpDst.q
  listIndexR3 := if s.c7.rangeRd && s.range.q.list then s.range.q.listIndex else s.c7.listIndex
  list := s.list.read (T.list s.listIndexR3)
  c9 := s.c8
  c10 := s.c9
  c11 :=
    { any := s.c10.any
      singleMatch := s.c10.singleMatch
      rangeMatch := s.c10.rangeMatch
      httpSrcMatch := s.c10.httpSrcMatch
      httpDstMatch := s.c10.httpDstMatch
      listMatch := s.c10.listRd && inList s.list.q s.c10.checkPort }
  portMatch := s.c11.any || s.c11.singleMatch || s.c11.rangeMatch || s.c11.httpSrcMatch || s.c11.httpDstMatch ||
    s.c11.listMatch

end PortUnit

/-! ## One rule -/

structure RuIn where
  inRuleData : RuleId
  inRuleValid : Bool
  ports : Ports

structure RuleUnit where
  portsR1 : Ports
  portsR2 : Ports
  portsR3 : Ports
  ruleRd : Bool
  rulePgValid : Bool
  /-- The port of the rule-to-port-group table that serves the unit. -/
  rule2pg : RdPort (Vec PgId 4)
  inPg : Vec PgId 4
  inPgValid : Vec Bool 4
  pg : Vec PortUnit 4
  hpRule : Vec RuleId 15
  rulePgMatch : Bool
  outRuleData : RuleId

namespace RuleUnit

variable (T : PgTables) (s : RuleUnit) (i : RuIn)

def portMatch : Bool := (List.finRange 4).any fun j => (s.pg j).portMatch

def step : RuleUnit where
  portsR1 := i.ports
  portsR2 := s.portsR1
  portsR3 := s.portsR2
  ruleRd := i.inRuleData != 0 && i.inRuleValid
  rulePgValid := s.ruleRd
  rule2pg := s.rule2pg.read (T.rule2pg (i.inRuleData - 1))
  -- port group 0 is treated as invalid
  inPg := vec fun j => s.rule2pg.q j - 1
  inPgValid := vec fun j => s.rulePgValid && s.rule2pg.q j != 0
  pg := vec fun j => (s.pg j).step T ⟨s.inPg j, s.inPgValid j, s.portsR3⟩
  hpRule := shiftIn i.inRuleData s.hpRule
  rulePgMatch := s.portMatch
  outRuleData := if s.portMatch then s.hpRule 14 else 0

end RuleUnit

/-! ## The filter -/

inductive PgState
  | idle | rule
  deriving DecidableEq, Repr

structure PgIn where
  inMetaValid : Bool
  inMetaData : Metadata
  ruleValid : Bool
  ruleBeat : RuleBeat 128
  intAlmostFull : Bool

structure PortGroup where
  state : PgState
  ports : Ports
  ruleValid : Bool
  ruleEop : Bool
  inMetaReady : Bool
  inRuleData : Vec RuleId 8
  hpRuleValid : Vec Bool 16
  hpRuleEop : Vec Bool 16
  unit : Vec RuleUnit 8
  intEop : Bool
  intValid : Bool
  intCnt : BitVec 2
  intData : Vec (BitVec 16) 8
  intMetaValid : Bool
  intMetaData : Metadata

namespace PortGroup

/-- The rule in word `k` of a beat. -/
def ruleAt (b : RuleBeat 128) (k : Fin 8) : RuleId := b.data.extractLsb' (16 * k.val) 13

def portsOf (m : Metadata) : Ports := ⟨m.prot == protTcp, m.tuple.sPort, m.tuple.dPort⟩

/-- After a reset; the registers that it does not clear keep what `p` has in them. -/
def reset (p : PortGroup) : PortGroup :=
  { p with
    state := .idle
    ports := { p.ports with tcp := false }
    ruleValid := false
    ruleEop := false
    inMetaReady := false
    hpRuleValid := vec fun _ => false
    hpRuleEop := vec fun _ => false
    unit := vec fun k => { p.unit k with ruleRd := false, rulePgMatch := false }
    intEop := false
    intValid := false
    intCnt := 0
    intMetaValid := false }

variable (T : PgTables) (s : PortGroup) (i : PgIn)

def ruleDepackerReady : Bool := s.state == .rule

/-- A packet is taken up. -/
def takesMeta : Bool := s.state == .idle && i.inMetaValid && !s.inMetaReady && !i.intAlmostFull

/-- A beat of its rules is taken. -/
def takesBeat : Bool := s.ruleDepackerReady && i.ruleValid

/-- The last beat of its rules is taken. -/
def takesLast : Bool := s.takesBeat i && i.ruleBeat.eop

def nextState : PgState :=
  if s.takesMeta i then .rule else if s.takesLast i then .idle else s.state

def step : PortGroup where
  state := s.nextState i
  ports := if s.takesMeta i then portsOf i.inMetaData else s.ports
  ruleValid := s.takesBeat i
  ruleEop := if s.state == .idle then false else if s.takesLast i then true else s.ruleEop
  inMetaReady := if s.state == .idle then false else if s.takesLast i then true else s.inMetaReady
  inRuleData := if s.takesBeat i then vec (ruleAt i.ruleBeat) else s.inRuleData
  hpRuleValid := shiftIn s.ruleValid s.hpRuleValid
  hpRuleEop := shiftIn s.ruleEop s.hpRuleEop
  unit := vec fun k => (s.unit k).step T ⟨s.inRuleData k, s.ruleValid, s.ports⟩
  intEop := s.hpRuleValid 15 && s.hpRuleEop 15
  intValid := s.hpRuleValid 15 && (((List.finRange 8).any fun k => (s.unit k).rulePgMatch) || s.hpRuleEop 15)
  intCnt := if s.intValid then if s.intEop then 0 else s.intCnt + 1 else s.intCnt
  intData := vec fun k => (s.unit k).outRuleData.setWidth 16
  intMetaValid := i.inMetaValid && s.inMetaReady
  intMetaData := i.inMetaData

end PortGroup

/-! ## The filter with its inputs and outputs -/

/-- One cycle: whether the next packet's metadata have come, whether a beat of rules is offered, and
the signal of the rule FIFO. -/
structure PgTick where
  metaComes : Bool
  beatComes : Bool
  intAlmostFull : Bool

/-- A beat written to the rule FIFO. -/
structure PgBeat where
  eop : Bool
  data : Vec (BitVec 16) 8
  deriving DecidableEq

/-- The filter between the queue of metadata, which are valid until they are taken, the beats of the
depacker and the two FIFOs behind it. -/
structure PgSys where
  pg : PortGroup
  metas : List Metadata
  shown : Bool
  beats : List (RuleBeat 128)
  out : List PgBeat
  metaOut : List Metadata

namespace PgSys

variable (T : PgTables) (s : PgSys) (i : PgTick)

def pgIn : PgIn where
  inMetaValid := (s.shown || i.metaComes) && !s.metas.isEmpty
  inMetaData := s.metas.headD .zero
  ruleValid := i.beatComes && !s.beats.isEmpty
  ruleBeat := s.beats.headD ⟨false, 0⟩
  intAlmostFull := i.intAlmostFull

/-- The metadata are taken. -/
def pops : Bool := (s.pgIn i).inMetaValid && s.pg.inMetaReady

def step : PgSys where
  pg := s.pg.step T (s.pgIn i)
  metas := if s.pops i then s.metas.tail else s.metas
  shown := (s.pgIn i).inMetaValid && !s.pg.inMetaReady
  beats := if s.pg.takesBeat (s.pgIn i) then s.beats.tail else s.beats
  out := s.out ++ if s.pg.intValid then [⟨s.pg.intEop, s.pg.intData⟩] else []
  metaOut := s.metaOut ++ if s.pg.intMetaValid then [s.pg.intMetaData] else []

end PgSys

end Pigasus
