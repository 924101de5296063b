import RtPay.Lib.Run
import RtPay.Lib.Fifo
import RtPay.Lib.Bytes
import RtPay.Lib.Last
import RtPay.Lib.CStr
import RtPay.Event
import RtPay.EventHandler
import RtPay.Gpio
import RtPay.Lcd.Driver
import RtPay.Lcd.Bus
import RtPay.Lcd.Session
import RtPay.Lcd.Screen
import RtPay.Lcd.Track
import RtPay.App
import RtPay.AppPulses
import RtPay.AppDisplay
import RtPay.AppWave
import RtPay.AppAmounts
import RtPay.Lib.JsonText
import RtPay.Jsmn
import RtPay.JsmnRuns
import RtPay.JsmnTurns
import RtPay.JsmnTokens
import RtPay.MqttKeys
import RtPay.MqttLink
import RtPay.MqttDecode
import RtPay.MqttConfig
import RtPay.MqttPairs
import RtPay.MqttStores
import RtPay.MqttEnds
import RtPay.MqttNumbers
import RtPay.MqttMembers
import RtPay.Umqtt.Client
import RtPay.Umqtt.Link
import RtPay.Umqtt.Subscribe
import RtPay.Umqtt.Reconnect
import RtPay.Umqtt.Qos2
import RtPay.Lib.Iso14443
import RtPay.CardReader
import RtPay.CardUid
import RtPay.Lib.Linked
import RtPay.Kernel.MsgQueue
import RtPay.Kernel.MsgQueueRuns
import RtPay.Lib.Waiters
import RtPay.Kernel.MsgQueueWakes
import RtPay.Kernel.EventQueue
import RtPay.Lib.WrapClock
import RtPay.Kernel.Timer
import RtPay.Kernel.TimerRuns
import RtPay.Kernel.TimerPeriods
import RtPay.AppTimes
import RtPay.Lib.VarInt
import RtPay.Lib.Frame
import RtPay.Umqtt.Wire
import RtPay.Umqtt.Decode
import RtPay.Umqtt.Stream
import RtPay.Lib.Topic
import RtPay.Umqtt.Topic
import RtPay.Umqtt.Receive
import RtPay.Owner
import RtPay.Umqtt.Lifetime
import RtPay.AtSocket
