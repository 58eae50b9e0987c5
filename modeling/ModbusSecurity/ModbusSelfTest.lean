import ModbusSecurity.ModbusPdu

/-! # The self-test of the Modbus server

The cases of `modbus_pdu_selftest.c` in their order: a request, and what its response must
be. They run against the tables of the process, whatever was served before. -/
namespace ModbusSecurity.ModbusSelfTest
open ByteStrings ModbusPdu

structure Case where
  req : Bytes
  passes : Bytes → Bool

def checkExact (req exp : Bytes) : Case := ⟨req, fun resp => resp == exp⟩

def checkException (req : Bytes) (func exc_code : Byte) : Case :=
  checkExact req (buildException func exc_code)

/-- Length, header and the first and last register of the longest register read. -/
def checkLongest (req : Bytes) : Case where
  req := req
  passes resp := resp.length == 252 && resp.getD 0 0 == 0x03 && resp.getD 1 0 == 250 &&
    resp.getD 2 0 == 0x10 && resp.getD 3 0 == 0x00 &&
    resp.getD 250 0 == 0x10 && resp.getD 251 0 == 0x7C

def readCases : List Case :=
  [ checkExact [0x01, 0x00, 0x00, 0x00, 0x02] [0x01, 0x01, 0x02],
    checkExact [0x02, 0x00, 0x00, 0x00, 0x02] [0x02, 0x01, 0x01],
    checkExact [0x03, 0x00, 0x00, 0x00, 0x02] [0x03, 0x04, 0x10, 0x00, 0x10, 0x01],
    checkExact [0x04, 0x00, 0x00, 0x00, 0x02] [0x04, 0x04, 0x20, 0x00, 0x20, 0x01],
    checkExact [0x01, 0x00, 0x7E, 0x00, 0x02] [0x01, 0x01, 0x02],
    checkException [0x01, 0x00, 0x7F, 0x00, 0x02] funcReadCoils illegalDataAddress,
    checkLongest [0x03, 0x00, 0x00, 0x00, 0x7D],
    checkException [0x03, 0x00, 0x00, 0x00, 0x7E] funcReadHoldingRegisters illegalDataValue,
    checkException [0x03, 0x00, 0x00] funcReadHoldingRegisters illegalDataValue,
    checkException [0x03, 0x00, 0x00, 0x00, 0x00] funcReadHoldingRegisters illegalDataValue,
    checkException [0x03, 0x00, 0x7F, 0x00, 0x02] funcReadHoldingRegisters illegalDataAddress,
    checkException [0x07] 0x07 illegalFunction ]

def rejectedWriteCases : List Case :=
  [ checkException [0x05, 0x00, 0x00, 0x12, 0x34] funcWriteSingleCoil illegalDataValue,
    checkException [0x0F, 0x00, 0x00, 0x00, 0x02, 0x02, 0x00, 0x00]
      funcWriteMultipleCoils illegalDataValue,
    checkException [0x10, 0x00, 0x00, 0x00, 0x02, 0x03, 0x00, 0x00, 0x00]
      funcWriteMultipleRegisters illegalDataValue,
    checkException [0x0F, 0x00, 0x7F, 0x00, 0x02, 0x01, 0x02]
      funcWriteMultipleCoils illegalDataAddress ]

/-- Every write is read back at once. -/
def writeCases : List Case :=
  [ checkExact [0x05, 0x00, 0x32, 0xFF, 0x00] [0x05, 0x00, 0x32, 0xFF, 0x00],
    checkExact [0x01, 0x00, 0x32, 0x00, 0x01] [0x01, 0x01, 0x01],
    checkExact [0x06, 0x00, 0x7D, 0x12, 0x34] [0x06, 0x00, 0x7D, 0x12, 0x34],
    checkExact [0x03, 0x00, 0x7D, 0x00, 0x01] [0x03, 0x02, 0x12, 0x34],
    checkExact [0x0F, 0x00, 0x32, 0x00, 0x02, 0x01, 0x02] [0x0F, 0x00, 0x32, 0x00, 0x02],
    checkExact [0x01, 0x00, 0x32, 0x00, 0x02] [0x01, 0x01, 0x02],
    checkExact [0x10, 0x00, 0x7D, 0x00, 0x02, 0x04, 0x00, 0x0A, 0x00, 0x0B]
      [0x10, 0x00, 0x7D, 0x00, 0x02],
    checkExact [0x03, 0x00, 0x7D, 0x00, 0x02] [0x03, 0x04, 0x00, 0x0A, 0x00, 0x0B] ]

def cases : List Case := readCases ++ rejectedWriteCases ++ writeCases

/-- One case: the response, if there is one, is compared with what is expected. -/
def runCase (r : Bool × DataModel) (c : Case) : Bool × DataModel :=
  let (resp, m) := modbusBuildResponse r.2 c.req
  (r.1 && resp.any c.passes, m)

/-- `true` is the result `1`, no case has failed. -/
def modbusPduSelfTest (m : DataModel) : Bool × DataModel := cases.foldl runCase (true, m)

end ModbusSecurity.ModbusSelfTest
